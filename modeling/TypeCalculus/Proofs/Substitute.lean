import TypeCalculus.Proofs.Ty.Rebuild
import TypeCalculus.Substitute

/-! Substitution hands on what all constructors hand on, such as the normal form: replacements have it, and the tree
    around them is rebuilt. The induction is on the steps that lead to a result. -/

namespace TypeCalculus

/-! ### Bindings -/

namespace Subst

/-- Every name is bound to a type that satisfies a property. -/
def Forall (P : Ty → Prop) (s : Subst) : Prop := ∀ e ∈ s.entries, P e.2

variable {P : Ty → Prop}

theorem forall_empty : Forall P {} := nofun

theorem Forall.find? {s : Subst} (h : s.Forall P) {name : String} {t : Ty} (ht : s.find? name = some t) : P t := by
  obtain ⟨before, after, he, -⟩ := List.lookup_eq_some_iff.1 ht
  refine h (name, t) ?_
  rw [he]
  exact List.mem_append_right _ List.mem_cons_self

theorem mem_insertEntry {name : String} {t : Ty} {e : String × Ty} :
    {es : List (String × Ty)} → e ∈ insertEntry name t es → e = (name, t) ∨ e ∈ es
  | [], h => Or.inl (List.mem_singleton.1 h)
  | (n, u) :: es, h => by
    rw [insertEntry] at h
    split at h
    · exact List.mem_cons.1 h
    · split at h
      · rcases List.mem_cons.1 h with h | h
        · exact Or.inl h
        · exact Or.inr (List.mem_cons_of_mem _ h)
      · rcases List.mem_cons.1 h with h | h
        · exact Or.inr (h ▸ List.mem_cons_self)
        · rcases mem_insertEntry h with h | h
          · exact Or.inl h
          · exact Or.inr (List.mem_cons_of_mem _ h)

theorem Forall.insert {s : Subst} (h : s.Forall P) (name : String) {t : Ty} (ht : P t) : (s.insert name t).Forall P := by
  intro e he
  rcases mem_insertEntry he with rfl | he
  · exact ht
  · exact h e he

theorem forall_ofList {entries : List (String × Ty)} (h : ∀ e ∈ entries, P e.2) : (ofList entries).Forall P := by
  have fold : ∀ {s : Subst}, s.Forall P → (entries.foldl (fun s e => s.insert e.1 e.2) s).Forall P := by
    induction entries with
    | nil => exact fun hs => hs
    | cons e entries ih =>
      intro s hs
      exact ih (fun e' he' => h e' (List.mem_cons_of_mem _ he')) (hs.insert e.1 (h e List.mem_cons_self))
  exact fold forall_empty

theorem Forall.without {s : Subst} (h : s.Forall P) (names : List String) : (s.without names).Forall P :=
  fun e he => h e (List.mem_filter.1 he).1

theorem find?_insert (s : Subst) (name : String) (t : Ty) (other : String) :
    (s.insert name t).find? other = if other = name then some t else s.find? other := by
  have inEntries : ∀ es : List (String × Ty),
      (insertEntry name t es).lookup other = if other = name then some t else es.lookup other := by
    intro es
    induction es with
    | nil => grind [insertEntry]
    | cons e es ih => grind [insertEntry]
  exact inEntries s.entries

theorem find?_insert_self (s : Subst) (name : String) (t : Ty) : (s.insert name t).find? name = some t := by
  rw [find?_insert, if_pos rfl]

theorem find?_insert_ne (s : Subst) {name other : String} (t : Ty) (h : other ≠ name) :
    (s.insert name t).find? other = s.find? other := by
  rw [find?_insert, if_neg h]

theorem find?_of_without {s : Subst} {names : List String} {name : String} {t : Ty}
    (h : (s.without names).find? name = some t) : s.find? name = some t := by
  have inEntries : ∀ es : List (String × Ty),
      (es.filter fun e => !names.contains e.1).lookup name = some t → es.lookup name = some t := by
    intro es
    induction es with
    | nil => exact id
    | cons e es ih =>
      intro h
      rw [List.filter_cons] at h
      split at h
      · grind
      · rename_i hn
        have hmem : ∀ es' : List (String × Ty),
            (es'.filter fun e => !names.contains e.1).lookup e.1 = none := by
          intro es'
          refine List.lookup_eq_none_iff.2 fun p hp => ?_
          have := (List.mem_filter.1 hp).2
          grind
        grind
  exact inEntries s.entries h

theorem mem_names_of_find? {s : Subst} {name : String} {t : Ty} (h : s.find? name = some t) : name ∈ s.names := by
  obtain ⟨before, after, he, -⟩ := List.lookup_eq_some_iff.1 h
  rw [names, he]
  simp

end Subst

/-! ### Substitution -/

/-- What unions hand on to their members and holds of both truth values holds of all alternatives. -/
theorem Substitute.alternatives_forall {P : Ty → Prop} (hunion : ∀ {ms}, P (.union ms) → ∀ m ∈ ms, P m)
    (hbool : ∀ b, P (Ty.boolLit b)) {t : Ty} (ht : P t) {members : List Ty} (ha : alternatives? t = some members) :
    ∀ m ∈ members, P m := by
  unfold alternatives? at ha
  split at ha
  · cases ha
    exact hunion ht
  · cases ha
    exact List.forall_mem_cons.2 ⟨hbool false, List.forall_mem_singleton.2 (hbool true)⟩
  · cases ha
    exact List.forall_mem_nil _
  · cases ha

namespace Ty.Carried
open Substitute
variable {P : Ty → Prop} (C : Carried P)
include C

theorem alternatives {t : Ty} (h : P t) {members : List Ty} (ha : alternatives? t = some members) :
    ∀ m ∈ members, P m :=
  alternatives_forall (fun h _ hm => C.child h hm) (fun _ => C.atom rfl) h ha

section Step
variable {self : Subst → List String → Ty → Option Ty}
  (hself : ∀ {s opened t u}, s.Forall P → P t → self s opened t = some u → P u)
include hself

theorem splits {s : Subst} {opened : List String} {check : Ty} {distribute : Bool} {name : String}
    {members : List Ty} (hs : s.Forall P) (hc : P check)
    (h : splits? self s opened check distribute = some (some (name, members))) : ∀ m ∈ members, P m := by
  unfold splits? at h
  split at h
  · dsimp only at h
    split at h
    · obtain ⟨replaced, hr, ha⟩ := Option.bind_eq_some_iff.1 h
      obtain ⟨ms, hms, he⟩ := Option.map_eq_some_iff.1 (Option.some.inj ha)
      cases he
      exact C.alternatives (hself hs hc hr) hms
    · cases h
  · cases h

theorem substituteStep {chain : Bool} {s : Subst} {opened : List String} {t u : Ty} (hs : s.Forall P)
    (ht : P t) (h : step chain self s opened t = some u) : P u := by
  have part : ∀ {s opened t}, s.Forall P → P t → Results.option.All P (self s opened t) :=
    fun hs ht u hu => hself hs ht hu
  unfold step at h
  split at h
  · split at h
    · cases h
      exact ht
    · cases h
      exact ht
    · rename_i replacement hr _ hf
      split at h
      · cases h
        exact ht
      · split at h
        · exact hself hs (hs.find? hf) h
        · cases h
          exact hs.find? hf
  · rename_i check bound yes no distribute
    obtain ⟨hc, hb, hy, hn⟩ := C.branches ht
    obtain ⟨split, hsplit, h⟩ := Option.bind_eq_some_iff.1 h
    split at h
    · rename_i name members
      have hm := C.splits hself hs hc hsplit
      obtain ⟨us, hus, he⟩ := Option.bind_eq_some_iff.1 h
      cases he
      refine C.unionOf (Results.option.mapM (fun m hmem => ?_) us hus)
      exact part (hs.insert name (hm m hmem)) ht
    · obtain ⟨c, hc', h⟩ := Option.bind_eq_some_iff.1 h
      obtain ⟨b, hb', h⟩ := Option.bind_eq_some_iff.1 h
      obtain ⟨n, hn', h⟩ := Option.bind_eq_some_iff.1 h
      obtain ⟨y, hy', h⟩ := Option.bind_eq_some_iff.1 h
      cases h
      exact C.conditional (fun hd => (Bool.and_eq_true_iff.1 hd).1) (hself hs hc hc') (hself hs hb hb')
        (hself (hs.without _) hy hy') (hself hs hn hn')
  · exact @Carried.rebuild P C _ _ _ _ _ _ Results.option.linked (self s opened) (self s opened) _ ht
      (fun v hv => part hs (C.child ht hv)) u h

end Step

theorem run {chain : Bool} {s : Subst} {opened : List String} {t u : Ty} (hs : s.Forall P) (ht : P t)
    (h : run chain s opened t = some u) : P u :=
  Subst.run.partial_correctness chain (fun s _ t u => s.Forall P → P t → P u)
    (fun _ hself _ _ _ _ h hs ht => C.substituteStep (fun hs ht h => hself _ _ _ _ h hs ht) hs ht h) s opened t u h hs ht

/-- Substitution hands the property on. -/
theorem substitute {t : Ty} {s : Subst} (ht : P t) (hs : s.Forall P) : P (t.substitute s) := by
  unfold Ty.substitute
  split
  · cases h : Substitute.run true s [] t with
    | none => exact ht
    | some u => exact C.run hs ht h
  · exact ht

theorem substituteOnce {t : Ty} {s : Subst} (ht : P t) (hs : s.Forall P) : P (t.substituteOnce s) := by
  unfold Ty.substituteOnce
  split
  · cases h : Substitute.run false s [] t with
    | none => exact ht
    | some u => exact C.run hs ht h
  · exact ht

end Ty.Carried

namespace Ty

/-- Substitution gives types in normal form. -/
theorem normal_substitute {t : Ty} {s : Subst} (ht : Normal t) (hs : s.Forall Normal) : Normal (t.substitute s) :=
  carried_normal.substitute ht hs

theorem normal_replaceParam {t : Ty} {name : String} {replacement : Ty} (ht : Normal t) (hr : Normal replacement) :
    Normal (t.replaceParam name replacement) := by
  refine carried_normal.substituteOnce ht (Subst.forall_ofList fun e he => ?_)
  rw [List.mem_singleton.1 he]
  exact hr

end Ty
end TypeCalculus
