/-
One open namespace for a name. The registry keeps the number of the namespace it made last under each name, also of one
that has been closed without its knowledge. That does no harm: whoever asks for the name looks whether the namespace is
still open, and a new one takes the place of a closed one. So of all namespaces ever given out under a name only the one
in the registry can be open (`Ledger.only`), and this one is what every question about the name comes to.

What is given out is read off the run: the answers of the registrations under a name (`GivenOut`). Between them anything
may happen to the world, namespaces closed by whoever holds them among it.

- `Ledger.after`: what one move keeps of the registry;
- `one_open_per_name`: what the registry answers at every moment of every run.
-/
import MountSpace.Proofs.Cuts
import MountSpace.Proofs.World.Books

namespace MountSpace

/-- a namespace that is open after an event was open before it -/
theorem Namespace.open_before {ns : Namespace} {event? : Option Event} (h : (ns.run event?.toList).isOpen = true) :
    ns.isOpen = true := by
  rcases event? with _ | ⟨turn | _⟩
  · exact h
  · exact (ns.turn_shell turn).isOpen ▸ h
  · cases h

namespace World

/-- a move is a registration under the name and gives out the namespace -/
def GivesOut (w : World) (m : Move) (name : String) (id : NamespaceId) : Prop :=
  ∃ settings, m = .registerNamespace settings ∧ settings.name = name ∧ (w.registerNamespace settings).1 = id

/-- some move of a run has given out the namespace under the name -/
def GivenOut (w : World) (moves : List Move) (name : String) (id : NamespaceId) : Prop :=
  ∃ before m later, moves = before ++ m :: later ∧ (w.run before).GivesOut m name id

/-- the registry of a world against what has been given out -/
structure Ledger (w : World) (given : String → NamespaceId → Prop) : Prop where
  /-- what is in the registry has been given out under its name -/
  entry : ∀ name id, w.registry.lookup name = some id → given name id
  /-- nothing else that has been given out under a name is open -/
  only : ∀ name id, given name id → w.IsOpen id → w.registry.lookup name = some id
  there : ∀ name id, given name id → (w.namespace? id).isSome
  once : (w.registry.map Prod.fst).Nodup

/-! ## Questions about a name -/

section Questions

variable {w : World}

theorem registered?_eq_some (hnum : w.Numbered) {name : String} {ns : Namespace} :
    w.registered? name = some ns ↔
      w.registry.lookup name = some ns.id ∧ w.namespace? ns.id = some ns ∧ ns.isOpen = true := by
  rw [registered?]
  cases hl : w.registry.lookup name with
  | none => simp
  | some id =>
    simp only [Option.bind_some, Option.some.injEq]
    cases hn : w.namespace? id with
    | none =>
      simp only [reduceCtorEq, false_iff]
      rintro ⟨rfl, hother, -⟩
      rw [hn] at hother
      cases hother
    | some other =>
      obtain rfl := hnum id other hn
      simp only
      constructor
      · intro h
        split at h
        · next hopen =>
          cases h
          exact ⟨rfl, hn, hopen⟩
        · cases h
      · rintro ⟨hid, hother, hopen⟩
        rw [← hid] at hother
        obtain rfl := Option.some.inj (hn.symm.trans hother)
        exact if_pos hopen

theorem findRegistered_eq_ok {name : String} {ns : Namespace} :
    w.findRegistered name = .ok ns ↔ w.registered? name = some ns := by
  rw [findRegistered]
  cases w.registered? name with
  | none => simp
  | some other => simp

/-- a registration gives out the open namespace under the name -/
theorem registerNamespace_found {settings : Settings} {ns : Namespace} (h : w.registered? settings.name = some ns) :
    w.registerNamespace settings = (ns.id, w) := by
  rw [registerNamespace, h]

/-- a registration gives out a new namespace where none is open under the name -/
theorem registerNamespace_new {settings : Settings} (h : w.registered? settings.name = none) :
    w.registerNamespace settings = (w.namespaces.size + 1,
      { (w.createNamespace settings).2 with registry := w.registry.put settings.name (w.namespaces.size + 1) }) := by
  rw [registerNamespace, h]
  rfl

/-- a registration gives out one number, under its own name -/
theorem givesOut_registration {settings : Settings} {name : String} {id : NamespaceId} :
    w.GivesOut (.registerNamespace settings) name id ↔
      settings.name = name ∧ (w.registerNamespace settings).1 = id := by
  constructor
  · rintro ⟨other, hsame, hname, hid⟩
    cases hsame
    exact ⟨hname, hid⟩
  · rintro ⟨hname, hid⟩
    exact ⟨settings, rfl, hname, hid⟩

/-- the next number is nobody's -/
theorem namespace?_next (w : World) : w.namespace? (w.namespaces.size + 1) = none := by
  rw [namespace?, if_neg (Nat.succ_ne_zero _), Nat.add_sub_cancel]
  exact Array.getElem?_eq_none (Nat.le_refl _)

theorem registered?_key {name : String} {ns : Namespace} (hkeys : (w.registry.map Prod.fst).Nodup)
    (h : w.registered? name = some ns) : name ∈ w.registry.map Prod.fst := by
  cases hl : w.registry.lookup name with
  | none =>
    rw [registered?, hl] at h
    cases h
  | some id => exact List.mem_map.2 ⟨_, (Table.lookup_eq_some_iff hkeys).1 hl, rfl⟩

theorem mem_registeredNames (hkeys : (w.registry.map Prod.fst).Nodup) {name : String} :
    name ∈ w.registeredNames ↔ ∃ ns, w.findRegistered name = .ok ns := by
  rw [registeredNames, List.mem_mergeSort, List.mem_filter, Option.isSome_iff_exists]
  simp only [findRegistered_eq_ok]
  constructor
  · intro h
    exact h.2
  · rintro ⟨ns, hns⟩
    exact ⟨registered?_key hkeys hns, ns, hns⟩

/-- the names are in strict order -/
theorem registeredNames_increasing (hkeys : (w.registry.map Prod.fst).Nodup) :
    w.registeredNames.Pairwise (· < ·) := by
  rw [registeredNames]
  generalize hnames : (w.registry.map Prod.fst).filter (fun name => (w.registered? name).isSome) = names
  have hdistinct : names.Nodup := hnames ▸ hkeys.filter _
  have hsorted : (names.mergeSort fun a b => decide (a ≤ b)).Pairwise fun a b => decide (a ≤ b) = true := by
    apply List.pairwise_mergeSort
    · intro a b c hab hbc
      exact decide_eq_true (String.le_trans (of_decide_eq_true hab) (of_decide_eq_true hbc))
    · intro a b
      simpa using String.le_total a b
  have hapart := (List.mergeSort_perm names fun a b => decide (a ≤ b)).symm.nodup hdistinct
  exact hsorted.imp₂ (fun a b hle hne => Std.lt_of_le_of_ne (of_decide_eq_true hle) hne) hapart

end Questions

/-! ## What a move keeps -/

section Moves

variable {w : World}

/-- a namespace that is there stays there -/
theorem namespace?_stays (hnum : w.Numbered) {id : NamespaceId} (h : (w.namespace? id).isSome) (m : Move) :
    ((w.after m).namespace? id).isSome := by
  obtain ⟨ns, hns⟩ := Option.isSome_iff_exists.1 h
  rw [namespaces_after hnum hns m]
  rfl

/-- no namespace that is there is opened -/
theorem isOpen_before (hnum : w.Numbered) {id : NamespaceId} (h : (w.namespace? id).isSome) {m : Move}
    (hopen : (w.after m).IsOpen id) : w.IsOpen id := by
  obtain ⟨ns, hns⟩ := Option.isSome_iff_exists.1 h
  obtain ⟨next, hnext, hisopen⟩ := hopen
  rw [namespaces_after hnum hns m] at hnext
  cases hnext
  exact ⟨ns, hns, Namespace.open_before hisopen⟩

/-- a namespace whose name is given up is closed -/
theorem not_isOpen_unregister (hnum : w.Numbered) {name : String} {id : NamespaceId} (h : (w.namespace? id).isSome)
    (hname : w.registry.lookup name = some id) : ¬ (w.after (.unregister name)).IsOpen id := by
  rintro ⟨next, hnext, hisopen⟩
  obtain ⟨ns, hns⟩ := Option.isSome_iff_exists.1 h
  rw [namespaces_after hnum hns, event?, if_pos hname] at hnext
  cases hnext
  cases hisopen

theorem registry_closeNamespace (w : World) (id : NamespaceId) : (w.closeNamespace id).registry = w.registry := by
  rw [closeNamespace]
  repeat' split
  all_goals rfl

/-- a name that is given up is in the registry no more -/
theorem registry_unregister (w : World) (name : String) :
    (w.after (.unregister name)).registry = w.registry.filter fun p => p.1 != name := by
  rw [after, unregister]
  cases hl : w.registry.lookup name with
  | none =>
    refine (List.filter_eq_self.2 ?_).symm
    rintro ⟨key, id⟩ hm
    rw [bne_iff_ne]
    rintro rfl
    have hne := List.lookup_eq_none_iff.1 hl _ hm
    simp at hne
  | some id => exact registry_closeNamespace _ id

/-- the registry changes with a registration and where a name is given up -/
theorem registry_after (w : World) (m : Move) :
    (∃ settings, m = .registerNamespace settings) ∨ (∃ name, m = .unregister name) ∨
      (w.after m).registry = w.registry := by
  have changed (id : NamespaceId) (readings : Nat)
      (op : External → Time → Namespace → Except FsError Unit × Namespace) :
      (w.change id readings op).2.registry = w.registry := by
    rw [change]
    split <;> rfl
  cases m with
  | registerNamespace settings => exact .inl ⟨settings, rfl⟩
  | unregister name => exact .inr (.inl ⟨name, rfl⟩)
  | closeNamespace id => exact .inr (.inr (registry_closeNamespace w id))
  | operate id operation =>
    refine .inr (.inr ?_)
    cases operation with
    | listDirectory path => rfl
    | resolve path => rfl
    | _ => exact changed _ _ _
  | watch id =>
    refine .inr (.inr ?_)
    rw [after]
    split
    · next h =>
      obtain ⟨ns, -, -, -, rfl⟩ := watch_eq_ok h
      rfl
    · rfl
  | register n path interest =>
    obtain ⟨f, hf⟩ := w.register_onService n path interest
    exact .inr (.inr (by rw [after, hf]; rfl))
  | ask n request =>
    obtain ⟨f, hf⟩ := w.ask_onService n request
    exact .inr (.inr (by rw [after, hf]; rfl))
  | reset n k =>
    obtain ⟨f, hf⟩ := w.reset_onService n k
    exact .inr (.inr (by rw [after, hf]; rfl))
  | _ => exact .inr (.inr rfl)

end Moves

/-! ## What runs keep -/

section Step

variable {w : World} {given : String → NamespaceId → Prop} (hnum : w.Numbered) (h : w.Ledger given)
include hnum h

omit hnum in
/-- nobody has been given the next number -/
theorem Ledger.untaken {name : String} : ¬ given name (w.namespaces.size + 1) := by
  intro hg
  have hthere := h.there name _ hg
  rw [w.namespace?_next] at hthere
  cases hthere

/-- a move that is no registration keeps the ledger, if nothing is added to the registry and no open namespace is taken
out of it -/
theorem Ledger.other {m : Move} (hm : ∀ settings, m ≠ .registerNamespace settings)
    (less : ∀ name id, (w.after m).registry.lookup name = some id → w.registry.lookup name = some id)
    (kept : ∀ name id, w.registry.lookup name = some id → (w.after m).IsOpen id →
      (w.after m).registry.lookup name = some id)
    (once : ((w.after m).registry.map Prod.fst).Nodup) :
    (w.after m).Ledger fun name id => given name id ∨ w.GivesOut m name id := by
  have old {name : String} {id : NamespaceId} (hg : given name id ∨ w.GivesOut m name id) : given name id := by
    rcases hg with hg | ⟨settings, hs, -⟩
    · exact hg
    · exact absurd hs (hm settings)
  refine ⟨?_, ?_, ?_, once⟩
  · intro name id hl
    exact .inl (h.entry name id (less name id hl))
  · intro name id hg hopen
    exact kept name id (h.only name id (old hg) (isOpen_before hnum (h.there name id (old hg)) hopen)) hopen
  · intro name id hg
    exact namespace?_stays hnum (h.there name id (old hg)) m

/-- a name is given up, and the namespace under it closed -/
theorem Ledger.unregister (gone : String) : (w.after (.unregister gone)).Ledger fun name id =>
    given name id ∨ w.GivesOut (.unregister gone) name id := by
  have hreg := w.registry_unregister gone
  have hlookup (name : String) : (w.after (.unregister gone)).registry.lookup name =
      if name != gone then w.registry.lookup name else none := by
    rw [hreg]
    exact Table.lookup_filter (fun key => key != gone) name _
  refine h.other hnum nofun ?_ ?_ ?_
  · intro name id hl
    rw [hlookup] at hl
    split at hl
    · exact hl
    · cases hl
  · intro name id hl hopen
    have hne : name ≠ gone := by
      rintro rfl
      exact not_isOpen_unregister hnum (h.there name id (h.entry name id hl)) hl hopen
    rw [hlookup, if_pos (bne_iff_ne.2 hne)]
    exact hl
  · rw [hreg]
    exact Table.nodup_filter h.once _

/-- a registration under a name that has an open namespace changes nothing, and gives out what is in the registry -/
theorem Ledger.again {settings : Settings} {ns : Namespace} (hns : w.registered? settings.name = some ns) :
    (w.after (.registerNamespace settings)).Ledger fun name id =>
      given name id ∨ w.GivesOut (.registerNamespace settings) name id := by
  obtain ⟨hlookup, hthere, -⟩ := (registered?_eq_some hnum).1 hns
  simp only [givesOut_registration, after, registerNamespace_found hns]
  refine ⟨?_, ?_, ?_, h.once⟩
  · intro name id hl
    exact .inl (h.entry name id hl)
  · intro name id hg hopen
    rcases hg with hg | ⟨rfl, rfl⟩
    · exact h.only name id hg hopen
    · exact hlookup
  · intro name id hg
    rcases hg with hg | ⟨rfl, rfl⟩
    · exact h.there name id hg
    · exact Option.isSome_of_eq_some hthere

/-- a registration under a name that has none puts a new namespace in the place of a closed one -/
theorem Ledger.fresh {settings : Settings} (hnone : w.registered? settings.name = none) :
    (w.after (.registerNamespace settings)).Ledger fun name id =>
      given name id ∨ w.GivesOut (.registerNamespace settings) name id := by
  simp only [givesOut_registration, after, registerNamespace_new hnone]
  have made (id : NamespaceId) : ({ (w.createNamespace settings).2 with
      registry := w.registry.put settings.name (w.namespaces.size + 1) } : World).namespace? id =
        if id = w.namespaces.size + 1 then some (.new id settings w.clock) else w.namespace? id := by
    exact namespace?_createNamespace settings
  refine ⟨?_, ?_, ?_, Table.nodup_put h.once _ _⟩
  · intro name id hl
    simp only [Table.lookup_put] at hl
    split at hl
    · next heq =>
      cases hl
      exact .inr ⟨(eq_of_beq heq).symm, rfl⟩
    · exact .inl (h.entry name id hl)
  · intro name id hg hopen
    simp only [Table.lookup_put]
    rcases hg with hg | ⟨rfl, rfl⟩
    · -- what is open under another name is in the registry still
      obtain ⟨ns, hns, isOpen⟩ := hopen
      have hold : id ≠ w.namespaces.size + 1 := by
        rintro rfl
        exact h.untaken hg
      rw [made, if_neg hold] at hns
      have hl := h.only name id hg ⟨ns, hns, isOpen⟩
      have hne : ¬ (name == settings.name) = true := by
        intro heq
        obtain rfl := eq_of_beq heq
        obtain rfl := hnum id ns hns
        rw [(registered?_eq_some hnum).2 ⟨hl, hns, isOpen⟩] at hnone
        cases hnone
      rw [if_neg hne]
      exact hl
    · rw [if_pos (beq_self_eq_true _)]
  · intro name id hg
    rw [made]
    split
    · rfl
    · next hne =>
      rcases hg with hg | ⟨-, hid⟩
      · exact h.there name id hg
      · exact absurd hid.symm hne

/-- **What one move keeps of the registry.** -/
theorem Ledger.after (m : Move) : (w.after m).Ledger fun name id => given name id ∨ w.GivesOut m name id := by
  by_cases hr : ∃ settings, m = .registerNamespace settings
  · obtain ⟨settings, rfl⟩ := hr
    cases hfound : w.registered? settings.name with
    | some ns => exact h.again hnum hfound
    | none => exact h.fresh hnum hfound
  · rcases w.registry_after m with hm | ⟨gone, rfl⟩ | hsame
    · exact absurd hm hr
    · exact h.unregister hnum gone
    · refine h.other hnum (fun settings hm => hr ⟨settings, hm⟩) ?_ ?_ ?_
      · intro name id hl
        rwa [hsame] at hl
      · intro name id hl _
        rwa [hsame]
      · rw [hsame]
        exact h.once

end Step

section Runs

variable {w : World} {moves : List Move} {name : String} {id : NamespaceId}

/-- what has been given out in a longer run -/
theorem givenOut_concat {m : Move} : GivenOut w (moves ++ [m]) name id ↔
    GivenOut w moves name id ∨ (w.run moves).GivesOut m name id := by
  constructor
  · rintro ⟨before, first, later, hcut, gives⟩
    rcases concat_eq_cut.1 hcut with ⟨rfl, rfl, -⟩ | ⟨since, -, hbefore⟩
    · exact .inr gives
    · exact .inl ⟨before, first, since, hbefore, gives⟩
  · rintro (⟨before, first, later, hbefore, gives⟩ | gives)
    · exact ⟨before, first, later ++ [m], concat_eq_cut.2 (.inr ⟨later, rfl, hbefore⟩), gives⟩
    · exact ⟨moves, m, [], rfl, gives⟩

theorem run_ledger (clock : Time) (moves : List Move) :
    ((World.new clock).run moves).Ledger (GivenOut (World.new clock) moves) := by
  induction moves using List.reverseRecOn with
  | nil =>
    have nothing : ∀ name id, ¬ GivenOut (World.new clock) [] name id := by
      rintro name id ⟨before, m, later, hcut, -⟩
      simp at hcut
    refine ⟨?_, ?_, ?_, List.nodup_nil⟩
    · intro name id hl
      cases hl
    · intro name id hg
      exact absurd hg (nothing name id)
    · intro name id hg
      exact absurd hg (nothing name id)
  | append_singleton moves m ih =>
    have hgiven : GivenOut (World.new clock) (moves ++ [m]) = fun name id =>
        GivenOut (World.new clock) moves name id ∨ ((World.new clock).run moves).GivesOut m name id := by
      funext name id
      exact propext givenOut_concat
    rw [hgiven, run_append]
    exact ih.after (run_sound clock moves).numbered m

end Runs

/-! ## What the registry answers -/

/-- an open namespace that has been given out under a name -/
structure OpenUnder (w : World) (given : String → NamespaceId → Prop) (name : String) (ns : Namespace) : Prop where
  given : given name ns.id
  there : w.namespace? ns.id = some ns
  isOpen : ns.isOpen = true

/-- every question about a name comes to the one namespace that is open under it -/
structure OnePerName (w : World) (given : String → NamespaceId → Prop) : Prop where
  atMostOne : ∀ name ns other, w.OpenUnder given name ns → w.OpenUnder given name other → ns = other
  /-- a registration gives out what is open under the name, and changes nothing then -/
  existing : ∀ settings ns, w.OpenUnder given settings.name ns → w.registerNamespace settings = (ns.id, w)
  /-- else it gives out a new open namespace, under a number that nobody has had -/
  fresh : ∀ settings, (∀ ns, ¬ w.OpenUnder given settings.name ns) →
    ∃ id next, w.registerNamespace settings = (id, next) ∧ w.namespace? id = none ∧ (∀ name, ¬ given name id) ∧
      next.namespace? id = some (.new id settings w.clock) ∧ next.IsOpen id
  found : ∀ name ns, w.findRegistered name = .ok ns ↔ w.OpenUnder given name ns
  missing : ∀ name e, w.findRegistered name = .error e → e = .notFound ("namespace " ++ name)
  increasing : w.registeredNames.Pairwise (· < ·)
  names : ∀ name, name ∈ w.registeredNames ↔ ∃ ns, w.findRegistered name = .ok ns

/-- what is open under a name is what the registry has open under it -/
theorem Ledger.openUnder_iff {w : World} {given : String → NamespaceId → Prop} (hnum : w.Numbered) (h : w.Ledger given)
    {name : String} {ns : Namespace} : w.OpenUnder given name ns ↔ w.registered? name = some ns := by
  rw [registered?_eq_some hnum]
  constructor
  · rintro ⟨hgiven, hthere, isOpen⟩
    exact ⟨h.only name ns.id hgiven ⟨ns, hthere, isOpen⟩, hthere, isOpen⟩
  · rintro ⟨hentry, hthere, isOpen⟩
    exact ⟨h.entry name ns.id hentry, hthere, isOpen⟩

/-- **One open namespace for a name.** At every moment of every run of the world, whatever has been asked of the
registry and whichever namespaces have been closed behind its back, at most one of the namespaces that registrations
have given out under a name is open. A registration gives out this one, or, if there is none, a new open one whose
number nobody has had before; the name is found exactly if there is one, and it is this one; and the names listed are
those that are found, in strict order. -/
theorem one_open_per_name (clock : Time) (moves : List Move) :
    ((World.new clock).run moves).OnePerName (GivenOut (World.new clock) moves) := by
  have hnum := (run_sound clock moves).numbered
  have ledger := run_ledger clock moves
  generalize (World.new clock).run moves = w at hnum ledger ⊢
  generalize GivenOut (World.new clock) moves = given at ledger ⊢
  have openUnder {name : String} {ns : Namespace} : w.OpenUnder given name ns ↔ w.registered? name = some ns :=
    ledger.openUnder_iff hnum
  refine ⟨?_, ?_, ?_, ?_, ?_, registeredNames_increasing ledger.once, fun name => mem_registeredNames ledger.once⟩
  · intro name ns other hns hother
    exact Option.some.inj ((openUnder.1 hns).symm.trans (openUnder.1 hother))
  · intro settings ns hns
    exact registerNamespace_found (openUnder.1 hns)
  · intro settings hnobody
    have hnone : w.registered? settings.name = none := by
      cases hfound : w.registered? settings.name with
      | none => rfl
      | some ns => exact absurd (openUnder.2 hfound) (hnobody ns)
    have made : (w.createNamespace settings).2.namespace? (w.namespaces.size + 1) =
        some (.new (w.namespaces.size + 1) settings w.clock) := by
      rw [namespace?_createNamespace, if_pos rfl]
    exact ⟨_, _, registerNamespace_new hnone, w.namespace?_next, fun name => ledger.untaken, made, _, made, rfl⟩
  · intro name ns
    rw [findRegistered_eq_ok, openUnder]
  · intro name e he
    rw [findRegistered] at he
    split at he
    · cases he
    · cases he
      rfl

/-- a namespace closed behind the registry's back gives way to a new one -/
example : (((World.new 0).run [.registerNamespace {}, .closeNamespace 1]).registerNamespace {}).1 = 2 := by cbv

end World

end MountSpace
