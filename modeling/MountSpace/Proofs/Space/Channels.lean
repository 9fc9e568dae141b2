/-
What is done with an open file: positions set, bytes read, the rest read (`ChannelAct`). Every answer comes from reads at
the positions that the file has been put to and has moved on to. If two filesystems read alike wherever a file can get to
from where it is put, they answer alike, however it is used (`play_alike`). A file below a limit of size moves on to
positions below the limit only (`slice_stays`).
-/
import MountSpace.Proofs.Space.Readings

namespace MountSpace

/-- something done with an open file -/
inductive ChannelAct where
  | seek (position : Nat)
  | read (size : Nat)
  /-- read all from the position to the end -/
  | readToEnd

/-- reads bring the same in both cases at every position that counts, and move on to such positions -/
structure ReadsAlike (counts : Nat → Prop) (read read' : Nat → Nat → Except FsError ByteArray) : Prop where
  same : ∀ position size, counts position → read position size = read' position size
  stays : ∀ position size chunk, counts position → read position size = .ok chunk → counts (position + chunk.size)

theorem ReadsAlike.refl (read : Nat → Nat → Except FsError ByteArray) : ReadsAlike (fun _ => True) read read :=
  ⟨fun _ _ _ => rfl, fun _ _ _ _ _ => trivial⟩

theorem ReadsAlike.readOn {counts : Nat → Prop} {read read' : Nat → Nat → Except FsError ByteArray}
    (h : ReadsAlike counts read read') (size : Nat) {position : Nat} (hposition : counts position) (sofar : ByteArray) :
    readOn (read · size) position sofar = readOn (read' · size) position sofar ∧
      counts (readOn (read · size) position sofar).2 := by
  fun_induction MountSpace.readOn (read · size) position sofar with
  | case1 position sofar e hr =>
    have hr' := (h.same position size hposition).symm.trans hr
    rw [MountSpace.readOn, hr']
    exact ⟨rfl, hposition⟩
  | case2 position sofar chunk hr hempty =>
    have hr' := (h.same position size hposition).symm.trans hr
    rw [MountSpace.readOn, hr']
    simp only [if_pos hempty]
    exact ⟨trivial, hposition⟩
  | case3 position sofar chunk hr hmore hlimit ih =>
    have hr' := (h.same position size hposition).symm.trans hr
    have hright : MountSpace.readOn (read' · size) position sofar =
        MountSpace.readOn (read' · size) (position + chunk.size) (sofar ++ chunk) := by
      rw [MountSpace.readOn, hr']
      simp only [if_neg hmore, if_pos hlimit]
    rw [hright]
    exact ih (h.stays position size chunk hposition hr)
  | case4 position sofar chunk hr hmore hlimit =>
    have hr' := (h.same position size hposition).symm.trans hr
    rw [MountSpace.readOn, hr']
    simp only [if_neg hmore, if_neg hlimit]
    exact ⟨trivial, h.stays position size chunk hposition hr⟩

/-- slices of a file that is smaller than the limit do not reach it -/
theorem slice_stays {limit position size : Nat} {data : ByteArray} (hdata : data.size < limit)
    (hposition : position < limit) :
    position + (data.extract (min position data.size) (min (position + size) data.size)).size < limit := by
  rw [ByteArray.size_extract]
  omega

namespace Channel

/-- the answers to what is done with an open file, in order; setting a position has none -/
def play (ext : External) : List ChannelAct → Channel → List (Except FsError ByteArray)
  | [], _ => []
  | .seek position :: rest, c => play ext rest (c.seek position)
  | .read size :: rest, c => (c.read ext size).1 :: play ext rest (c.read ext size).2
  | .readToEnd :: rest, c => (c.readToEnd ext).1 :: play ext rest (c.readToEnd ext).2

/-- every position set lies below the limit -/
def Below (limit : Nat) (acts : List ChannelAct) : Prop := ∀ position, .seek position ∈ acts → position < limit

/-- **Filesystems that read alike answer alike**, whatever is done with a file. -/
theorem play_alike {ext ext' : External} {counts : Nat → Prop} {source : ExternalPath}
    (h : ReadsAlike counts ((ext source.fs).read source.path) ((ext' source.fs).read source.path))
    {acts : List ChannelAct} (hacts : ∀ position, .seek position ∈ acts → counts position) {c : Channel}
    (hsource : c.source = source) (hposition : counts c.position) : c.play ext acts = c.play ext' acts := by
  induction acts generalizing c with
  | nil => rfl
  | cons act rest ih =>
    have hrest : ∀ position, .seek position ∈ rest → counts position :=
      fun position hm => hacts position (List.mem_cons_of_mem _ hm)
    cases act with
    | seek position =>
      rw [play, play]
      exact ih hrest hsource (hacts position List.mem_cons_self)
    | read size =>
      have hread : c.read ext size = c.read ext' size := by
        rw [Channel.read, Channel.read, hsource, h.same c.position size hposition]
      have hnext : (c.read ext size).2.source = source ∧ counts (c.read ext size).2.position := by
        rw [Channel.read, hsource]
        cases hr : (ext source.fs).read source.path c.position size with
        | error e => exact ⟨hsource, hposition⟩
        | ok chunk => exact ⟨rfl, h.stays c.position size chunk hposition hr⟩
      rw [play, play, ← hread]
      exact congrArg _ (ih hrest hnext.1 hnext.2)
    | readToEnd =>
      obtain ⟨hsame, hend⟩ := h.readOn readChunk hposition .empty
      have hread : c.readToEnd ext = c.readToEnd ext' := by
        simp only [readToEnd, hsource, hsame]
      have hnext : (c.readToEnd ext).2.source = source ∧ counts (c.readToEnd ext).2.position := by
        rw [readToEnd, hsource]
        split
        · exact ⟨hsource, hposition⟩
        · exact ⟨rfl, hend⟩
      rw [play, play, ← hread]
      exact congrArg _ (ih hrest hnext.1 hnext.2)

end Channel

end MountSpace
