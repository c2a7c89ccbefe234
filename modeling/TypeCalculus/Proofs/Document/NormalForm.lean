import TypeCalculus.Proofs.Ty.Rebuild
import TypeCalculus.Document.Build

/-! Types built from nodes are in normal form. Every form of node is built by the constructor of its variant from
    parts that are built before; the induction is on how deep nodes may nest. -/

namespace TypeCalculus

/-- Results of a step of building. -/
def Results.building : Results Document.Building where
  All P x := ∀ a, x.run = some (.ok a) → P a
  pure h a e := by
    cases e
    exact h
  bind {_ _ _ _ x f} hx hf b e := by
    change (x.run.bind (ExceptT.bindCont f)) = some (.ok b) at e
    cases hr : x.run with
    | none =>
      rw [hr] at e
      cases e
    | some r =>
      rw [hr] at e
      cases r with
      | error => cases e
      | ok a => exact hf a (hx a hr) b e

namespace Document
open Yaml (Node Graph)
open Ty (Normal holes)

def NormalSegment : Segment Ty → Prop
  | .text _ => True
  | .hole t => Normal t

theorem normal_of_mem_holes {segments : List (Segment Ty)} (h : ∀ s ∈ segments, NormalSegment s) :
    ∀ t ∈ holes segments, Normal t := by
  intro t ht
  obtain ⟨s, hs, he⟩ := List.mem_filterMap.1 ht
  cases s with
  | text => cases he
  | hole u =>
    cases he
    exact h _ hs

section
variable {α : Type} {P : α → Prop}

/-- Every result of the step satisfies the property. -/
abbrev Builds (P : α → Prop) (x : Building α) : Prop := Results.building.All P x

/-- A step after one of whose result nothing is known. -/
theorem Builds.after {β : Type} {x : Building β} {f : β → Building α} (h : ∀ b, Builds P (f b)) : Builds P (x >>= f) :=
  Results.building.bind (P := fun _ => True) (fun _ _ => trivial) fun b _ => h b

theorem builds_fault (n : Option Node) (f : NodeFault) : Builds P (fault n f) := nofun

theorem builds_crash : Builds P crash := nofun

theorem builds_checked (n : Option Node) {x : Except TypeError α} (h : ∀ a, x = .ok a → P a) : Builds P (checked n x) := by
  cases x with
  | error e => exact nofun
  | ok a => exact Results.building.pure (h a rfl)

end

/-! ### Forms of nodes -/

section Forms
variable {g : Graph} {self : Node → Building Ty} (hself : ∀ n, Builds Normal (self n))
include hself

omit hself in
theorem builds_keyword (n : Option Node) : Builds Normal (buildKeyword n) := by
  refine Builds.after fun name => ?_
  split
  · exact Results.building.pure Ty.normal_any
  · exact Results.building.pure Ty.normal_unknown
  · exact Results.building.pure Ty.normal_never
  · exact Results.building.pure (.leaf trivial rfl)
  · exact Results.building.pure Ty.normal_emptyObject
  · exact builds_fault _ _

omit hself in
theorem builds_primitive (n : Option Node) : Builds Normal (buildPrimitive n) := by
  refine Builds.after fun name => ?_
  split
  · exact Results.building.pure (Ty.normal_prim _)
  · exact builds_fault _ _

omit hself in
theorem builds_literal (n : Option Node) (base : Prim) : Builds Normal (buildLiteral n base) :=
  Builds.after fun _ => builds_checked n fun _ h => Ty.normal_readLiteral h

theorem builds_typeAt (n : Option Node) : Builds Normal (typeAt self n) := by
  cases n with
  | none => exact builds_fault _ _
  | some n => exact hself n

theorem builds_required (parent : Option Node) (f : Fields) (key : String) : Builds Normal (required self parent f key) :=
  Builds.after fun _ => builds_typeAt hself _

theorem builds_optional (f : Fields) (key : String) : Builds Normal (optional self f key) := by
  unfold optional
  split
  · exact builds_typeAt hself _
  · exact Results.building.pure Ty.normal_absent

theorem builds_all (n : Option Node) : Builds (fun ts => ∀ t ∈ ts, Normal t) (buildAll self n) :=
  Builds.after fun _ => Results.building.mapM fun n _ => hself n

theorem builds_named (n : Option Node) : Builds (fun p : String × Ty => Normal p.2) (buildNamed g self n) := by
  unfold buildNamed
  split
  · split
    · exact builds_fault _ _
    · exact Results.building.pure Ty.normal_absent
  · refine Builds.after fun f => Builds.after fun m => Builds.after fun name => ?_
    exact Results.building.bind (builds_optional hself f _) fun c hc => Results.building.pure hc

theorem builds_template (n : Option Node) : Builds Normal (buildTemplate g self n) := by
  have segment : ∀ n, Builds NormalSegment (buildSegment g self n) := by
    intro n
    unfold buildSegment
    split
    · exact builds_crash
    · exact Results.building.pure trivial
    · exact Results.building.bind (hself _) fun t ht => Results.building.pure ht
  refine Builds.after fun ns => ?_
  refine Results.building.bind (Results.building.mapM fun n _ => segment n) fun segments hs => ?_
  exact builds_checked n fun _ h => Ty.normal_newTemplate (normal_of_mem_holes hs) h

theorem builds_property (n : Node) : Builds (fun p : Property Ty => Normal p.type) (buildProperty g self n) := by
  refine Builds.after fun f => Builds.after fun m => Builds.after fun key => ?_
  refine Results.building.bind (builds_required hself _ f _) fun t ht => ?_
  exact Builds.after fun _ => Builds.after fun _ => Results.building.pure ht

theorem builds_index (n : Option Node) : Builds (fun i : IndexSignature Ty => Normal i.value) (buildIndex g self n) := by
  refine Builds.after fun f => Builds.after fun m => Builds.after fun name => ?_
  split
  · exact builds_fault _ _
  · exact Results.building.bind (builds_required hself n f _) fun t ht => Results.building.pure ht

theorem builds_props (f : Fields) : Builds (fun ps => ∀ p ∈ ps, Normal p.type) (buildProps g self f) := by
  unfold buildProps
  split
  · exact builds_crash
  · exact Builds.after fun ns => Results.building.mapM fun n _ => builds_property hself n
  · exact Results.building.pure (List.forall_mem_nil _)

theorem builds_signature (f : Fields) :
    Builds (fun i : Option (IndexSignature Ty) => ∀ x, i = some x → Normal x.value) (buildSignature g self f) := by
  unfold buildSignature
  split
  · refine Results.building.bind (builds_index hself _) fun i hi => Results.building.pure ?_
    rintro x ⟨⟩
    exact hi
  · exact Results.building.pure nofun

theorem builds_object (n : Option Node) : Builds Normal (buildObject g self n) := by
  unfold buildObject
  split
  · exact builds_crash
  split
  · exact Results.building.pure Ty.normal_emptyObject
  refine Builds.after fun f => ?_
  refine Results.building.bind (builds_props hself f) fun ps hp => ?_
  refine Results.building.bind (builds_signature hself f) fun i hi => ?_
  exact builds_checked _ fun _ h => Ty.normal_newObject hp hi h

omit hself in
theorem normal_list {t : Ty} {ts : List Ty} (hf : t.NodeForm) (hc : t.children = ts) (h : ∀ u ∈ ts, Normal u) :
    Normal t :=
  ⟨hf, fun u hu => h u (hc ▸ hu)⟩

omit hself in
theorem normal_builtIn {name : String} {make : Ty → Ty} (h : builtIn? name = some make) {t : Ty} (ht : Normal t) :
    Normal (make t) := by
  unfold builtIn? at h
  split at h
  · cases h
    exact .single trivial rfl ht
  · split at h
    · cases h
      exact .single trivial rfl ht
    · obtain ⟨op, -, rfl⟩ := Option.map_eq_some_iff.1 h
      exact .single trivial rfl ht

theorem builds_reference (n : Option Node) : Builds Normal (buildReference g self n) := by
  refine Builds.after fun f => Builds.after fun m => Builds.after fun name => ?_
  extract_lets finish
  have applied : ∀ ts : List Ty, (∀ t ∈ ts, Normal t) → Builds Normal (finish ts) := by
    intro ts hts
    dsimp only [finish]
    split
    · exact Results.building.pure (normal_list trivial rfl hts)
    · rename_i make hm
      split
      · exact Results.building.pure (normal_builtIn hm (hts _ List.mem_cons_self))
      · exact builds_fault _ _
  split
  · exact Results.building.bind (builds_all hself _) applied
  · exact applied [] (List.forall_mem_nil _)

theorem builds_function (n : Option Node) : Builds Normal (buildFunction g self n) := by
  refine Builds.after fun f => ?_
  have resulting : ∀ ts : List Ty, (∀ t ∈ ts, Normal t) → Builds Normal (do
      let result ← optional self f "result"
      return .function ts (if result.isAbsent then .void else result)) := by
    intro ts hts
    refine Results.building.bind (builds_optional hself f _) fun r hr => Results.building.pure ?_
    refine normal_list trivial rfl fun u hu => ?_
    rcases List.mem_append.1 hu with hu | hu
    · exact hts u hu
    · rw [List.mem_singleton.1 hu]
      split
      · exact .leaf trivial rfl
      · exact hr
  dsimp only
  split
  · exact Results.building.bind (builds_all hself _) resulting
  · exact resulting [] nofun

theorem builds_access (n : Option Node) : Builds Normal (buildAccess g self n) := by
  refine Builds.after fun f => ?_
  refine Results.building.bind (builds_required hself n f _) fun t ht => ?_
  refine Results.building.bind (builds_required hself n f _) fun i hi => Results.building.pure ?_
  refine normal_list trivial rfl fun u hu => ?_
  rcases List.mem_cons.1 hu with rfl | hu
  · exact ht
  · exact List.mem_singleton.1 hu ▸ hi

theorem builds_mapping (n : Option Node) : Builds Normal (buildMapping g self n) := by
  refine Builds.after fun f => Builds.after fun m => Builds.after fun name => ?_
  split
  · exact builds_fault _ _
  · exact Results.building.bind (builds_required hself n f _) fun t ht =>
      Results.building.pure (.single trivial rfl ht)

theorem builds_conditional (n : Option Node) : Builds Normal (buildConditional g self n) := by
  refine Builds.after fun f => ?_
  refine Results.building.bind (builds_required hself n f _) fun c hc => ?_
  refine Results.building.bind (builds_required hself n f _) fun b hb => ?_
  refine Results.building.bind (builds_required hself n f _) fun y hy => ?_
  refine Results.building.bind (builds_required hself n f _) fun e he => ?_
  exact builds_checked n fun _ h => Ty.normal_newConditional hc hb hy he h

/-- Every form of node gives a type in normal form, if its parts do. -/
theorem builds_form (keyNode : Node) (n : Option Node) : Builds Normal (buildForm g self keyNode n) := by
  have single : ∀ {make : Ty → Ty}, (∀ t, Normal t → Normal (make t)) → Builds Normal (do return make (← typeAt self n)) :=
    fun hm => Results.building.bind (builds_typeAt hself n) fun t ht => Results.building.pure (hm t ht)
  unfold buildForm
  split
  · exact builds_keyword n
  · exact builds_primitive n
  · exact Builds.after fun _ => Results.building.pure (Ty.normal_literal _ _)
  · exact builds_literal n _
  · exact builds_literal n _
  · exact builds_literal n _
  · exact builds_literal n _
  · exact builds_template hself n
  · exact builds_object hself n
  · exact single fun t ht => .single trivial rfl ht
  · exact single fun t ht => .single trivial rfl ht
  · exact Results.building.bind (builds_all hself n) fun ts hts => Results.building.pure (normal_list trivial rfl hts)
  · exact Results.building.bind (builds_all hself n) fun ts hts => Results.building.pure (Ty.normal_unionOf hts)
  · exact Results.building.bind (builds_all hself n) fun ts hts => Results.building.pure (Ty.normal_meetOf hts)
  · refine Results.building.bind (builds_named hself n) fun p hp => Results.building.pure ?_
    refine normal_list trivial rfl fun u hu => ?_
    rcases List.mem_cons.1 hu with rfl | hu
    · exact hp
    · exact List.mem_singleton.1 hu ▸ Ty.normal_absent
  · exact Results.building.bind (builds_named hself n) fun p hp => Results.building.pure (Ty.normal_infer.2 hp)
  · exact builds_reference hself n
  · exact builds_function hself n
  · exact single fun t ht => .single trivial rfl ht
  · exact builds_access hself n
  · exact builds_mapping hself n
  · exact builds_conditional hself n
  · exact builds_fault _ _

end Forms

theorem builds_step {g : Graph} {self : Node → Building Ty} (hself : ∀ n, Builds Normal (self n)) (n : Node) :
    Builds Normal (buildStep g self n) := by
  unfold buildStep
  split
  · exact builds_fault _ _
  · exact builds_form hself _ _
  · exact builds_fault _ _

theorem normal_outcome {g : Graph} {n : Node} {r : Except Stop Ty} (h : outcome g n = some r) :
    ∀ t, r = .ok t → Normal t := by
  refine Yaml.Graph.outcome.partial_correctness g (fun _ r => ∀ t, r = .ok t → Normal t) (fun self hself n r hr t ht => ?_) n r h
  exact builds_step (fun n t ht => hself n _ ht t rfl) n t (ht ▸ hr)

theorem settle_eq_ok {n : Node} {r : Option (Except Stop Ty)} {t : Ty} (h : settle n r = .ok t) : r = some (.ok t) := by
  unfold settle at h
  split at h
  · cases h
    rfl
  · cases h
  · cases h

/-- A type built from a node is in normal form. -/
theorem normal_build {g : Graph} {n : Node} {t : Ty} (h : build g n = .ok t) : Normal t :=
  normal_outcome (settle_eq_ok h) t rfl

end Document

end TypeCalculus
