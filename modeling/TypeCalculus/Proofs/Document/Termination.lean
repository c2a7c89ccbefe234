import Mathlib.Data.Set.Finite.Lattice
import Mathlib.Data.Fintype.Card
import TypeCalculus.Proofs.Document.Outcome

/-! Where building comes to an end. Only finitely many nodes can be reached from a node, so type positions end unless some
    node at a type position leads back to itself (`unfolds_of_acyclic`); then building ends. A node that leads back to
    itself below an array is built without end. -/

namespace TypeCalculus.Document
open Yaml (Node Graph)
open Relation (ReflTransGen TransGen)

/-! ### Nodes that can be reached -/

theorem sizeOf_lt_of_mem_below {n m : Node} (h : m ∈ below n) : sizeOf m < sizeOf n := by
  cases n with
  | sequence line tag items =>
    have : sizeOf m < sizeOf items := List.sizeOf_lt_of_mem h
    simp only [Node.sequence.sizeOf_spec]
    omega
  | mapping line tag entries =>
    obtain ⟨⟨k, v⟩, he, rfl⟩ := List.mem_map.1 h
    have := List.sizeOf_lt_of_mem he
    simp only [Node.mapping.sizeOf_spec, Prod.mk.sizeOf_spec] at this ⊢
    omega
  | _ => cases h

/-- Finitely many nodes are written in a node. -/
theorem finite_written (n : Node) : {m | ReflTransGen (fun a b => b ∈ below a) n m}.Finite := by
  induction hs : sizeOf n using Nat.strongRecOn generalizing n with
  | ind size ih =>
    have parts : (⋃ i ∈ {i | i ∈ below n}, {m | ReflTransGen (fun a b => b ∈ below a) i m}).Finite :=
      (List.finite_toSet (below n)).biUnion fun i hi => ih _ (hs ▸ sizeOf_lt_of_mem_below hi) i rfl
    refine ((Set.finite_singleton n).union parts).subset fun m hm => ?_
    rcases ReflTransGen.cases_head hm with rfl | ⟨i, hi, hm⟩
    · exact .inl rfl
    · exact .inr (Set.mem_biUnion hi hm)

/-! ### Building that ends -/

/-- The second node stands at a type position right below the first. -/
def Leads (g : Graph) (n m : Node) : Prop := m ∈ positions g n

/-- Finitely many nodes stand at type positions below a node. -/
theorem finite_reached (g : Graph) (n : Node) : {m | ReflTransGen (Leads g) n m}.Finite := by
  have anchored : (⋃ a ∈ {a | a ∈ g.anchors}, {m | ReflTransGen (fun a b => b ∈ below a) a.2 m}).Finite :=
    (List.finite_toSet g.anchors).biUnion fun a _ => finite_written a.2
  refine ((finite_written n).union anchored).subset fun m hm => ?_
  have held : Held g fun m => m ∈ {m | ReflTransGen (fun a b => b ∈ below a) n m} ∪
      ⋃ a ∈ {a | a ∈ g.anchors}, {m | ReflTransGen (fun a b => b ∈ below a) a.2 m} := by
    constructor
    · rintro k m (hk | hk) hm
      · exact .inl (ReflTransGen.tail hk hm)
      · obtain ⟨a, ha, hk⟩ := Set.mem_iUnion₂.1 hk
        exact .inr (Set.mem_biUnion ha (ReflTransGen.tail hk hm))
    · intro k m hk hr
      unfold Graph.resolve at hr
      split at hr
      · exact .inr (Set.mem_biUnion (mem_anchors hr) ReflTransGen.refl)
      · exact Option.some.inj hr ▸ hk
  induction hm with
  | refl => exact .inl .refl
  | tail _ hl ih => exact held.of_positions ih hl

/-- Type positions end if no node that they lead to leads back to itself. -/
theorem unfolds_of_acyclic {g : Graph} {n : Node} (acyclic : ∀ m, ReflTransGen (Leads g) n m → ¬TransGen (Leads g) m m) :
    Unfolds g n := by
  let Reached := {m // ReflTransGen (Leads g) n m}
  have : Finite Reached := finite_reached g n
  let deeper (a b : Reached) : Prop := TransGen (Leads g) b.1 a.1
  have : IsTrans Reached deeper := ⟨fun _ _ _ h h' => h'.trans h⟩
  have : Std.Irrefl deeper := ⟨fun m => acyclic m.1 m.2⟩
  have ends : ∀ m : Reached, Unfolds g m.1 := by
    intro m
    induction m using (Finite.wellFounded_of_trans_of_irrefl deeper).induction with
    | _ m ih => exact .node fun k hk => ih ⟨k, m.2.tail hk⟩ (TransGen.single hk)
  exact ends ⟨n, .refl⟩

theorem unfolds_of_written {g : Graph} {n : Node} (h : Written g n) : Unfolds g n := by
  induction h with
  | type hn hp _ _ _ ih => exact .node fun m hm => ih m (positions_of_resolve hn hp ▸ hm)

theorem Unfolds.reached {g : Graph} {n m : Node} (h : Unfolds g n) (hm : ReflTransGen (Leads g) n m) : Unfolds g m := by
  induction hm with
  | refl => exact h
  | tail _ hl ih =>
    cases ih with
    | node below => exact below _ hl

theorem Unfolds.acyclic {g : Graph} {n : Node} (h : Unfolds g n) : ¬TransGen (Leads g) n n := by
  induction h with
  | node _ ih =>
    intro round
    obtain ⟨m, hl, back⟩ := TransGen.head'_iff.1 round
    exact ih m hl (TransGen.tail' back hl)

/-- Building comes to an end unless the type positions below the node lead to one that leads back to itself: with a type or
    with a failure, if each alias leads to a node. Where they do lead to such a one, building never ends with a type. -/
theorem building_ends (g : Graph) (n : Node) :
    ((∀ m, ReflTransGen (Leads g) n m → ¬TransGen (Leads g) m m) →
      ∃ r, outcome g n = some r ∧ (Linked g n → r = (build g n).mapError .failed)) ∧
    ∀ t, outcome g n = some (.ok t) → ∀ m, ReflTransGen (Leads g) n m → ¬TransGen (Leads g) m m := by
  refine ⟨fun acyclic => ?_, fun t ht m hm => ?_⟩
  · obtain ⟨r, hr⟩ := outcome_of_unfolds (unfolds_of_acyclic acyclic)
    exact ⟨r, hr, fun linked => outcome_of_linked linked hr⟩
  · exact ((unfolds_of_written ((told_of_outcome ht).1 t rfl).2).reached hm).acyclic

theorem unfolds_shared : Unfolds sharedGraph shared := by
  have leaf : ∀ {n : Node}, positions sharedGraph n = [] → Unfolds sharedGraph n := fun hn =>
    .node fun m hm => absurd (hn ▸ hm) List.not_mem_nil
  refine .node fun m hm => ?_
  rcases List.mem_cons.1 hm with rfl | hm
  · exact leaf rfl
  · exact List.mem_singleton.1 hm ▸ leaf rfl

/-- An alias of a node that does not contain it does no harm. -/
theorem building_shared_ends :
    Yaml.parse sharedText = .ok sharedGraph ∧ sharedGraph.root = some shared ∧
      outcome sharedGraph shared = some ((build sharedGraph shared).mapError .failed) := by
  obtain ⟨r, hr, told⟩ := (building_ends sharedGraph shared).1 fun m hm => (unfolds_shared.reached hm).acyclic
  exact ⟨parse_shared, rfl, told linked_shared ▸ hr⟩

/-! ### An array of itself -/

def endlessText : String := "&a \x7barray: *a\x7d"

/-- An array whose elements are given by an alias of the array. -/
def endless : Node := .mapping 1 "!!map" [(.scalar 1 "!!str" "array", .link 1 "a" 0)]

def endlessGraph : Graph := ⟨some endless, [(0, endless)]⟩

theorem parse_endless : Yaml.parse endlessText = .ok endlessGraph := by cbv

/-- Building the root of the document does not come to an end. -/
theorem building_runs_on :
    Yaml.parse endlessText = .ok endlessGraph ∧ endlessGraph.root = some endless ∧ outcome endlessGraph endless = none := by
  refine ⟨parse_endless, rfl, Option.eq_none_iff_forall_ne_some.2 fun r hr => ?_⟩
  have never := Yaml.Graph.outcome.partial_correctness endlessGraph (fun n _ => n ≠ endless) (fun self hself n r hr => ?_) endless r hr
  · exact never rfl
  · rintro rfl
    have again : ((ExceptT.mk (self endless) >>= fun t => pure (Ty.array t false) : Building Ty)).run = some r := hr
    obtain ⟨o, ho, -⟩ := Option.bind_eq_some_iff.1 again
    exact hself endless o ho rfl

end TypeCalculus.Document
