import Mathlib.Logic.Relation
import TypeCalculus.Proofs.Document.Positions

/-! The nodes that can be come by from a node, those written in it and those behind the aliases. Type positions are among
    them. Where each alias among them leads to a node that is written out (`Linked`), nothing is looked into that is not
    there. -/

namespace TypeCalculus.Document
open Yaml (Node Graph)
open Relation (ReflTransGen)

/-- The nodes written right below a node, keys aside. -/
def below : Node → List Node
  | .sequence _ _ items => items
  | .mapping _ _ entries => entries.map (·.2)
  | _ => []

/-- The second node is written right below the first, or the first is an alias of it. -/
def Reaches (g : Graph) (n m : Node) : Prop := m ∈ below n ∨ g.resolve n = some m

/-- The nodes have with each node those right below it, and those that aliases refer to. -/
structure Held (g : Graph) (S : Node → Prop) : Prop where
  below : ∀ {n m}, S n → m ∈ below n → S m
  resolved : ∀ {n m}, S n → g.resolve n = some m → S m

section Held
variable {g : Graph} {S : Node → Prop}

theorem mem_below_of_mem_listed {n m : Node} (h : m ∈ listed n) : m ∈ below n := by
  cases n <;> first | exact h | cases h

theorem Held.of_listed (H : Held g S) {n m : Node} (hn : S n) (h : m ∈ listed n) : S m :=
  H.below hn (mem_below_of_mem_listed h)

theorem Held.of_under (H : Held g S) {n m : Node} {key : String} (hn : S n) (h : m ∈ under g key n) : S m := by
  cases n with
  | mapping line tag entries =>
    obtain ⟨e, he, h⟩ := List.mem_filterMap.1 h
    split at h
    · exact H.resolved (H.below hn (List.mem_map_of_mem he)) h
    · cases h
  | _ => cases h

theorem Held.of_lists (H : Held g S) {n m : Node} {key : String} (hn : S n) (h : m ∈ (under g key n).flatMap listed) : S m := by
  obtain ⟨list, hl, hm⟩ := List.mem_flatMap.1 h
  exact H.of_listed (H.of_under hn hl) hm

theorem Held.of_positionsOf (H : Held g S) {form : String} {n m : Node} (hn : S n) (h : m ∈ positionsOf g form n) : S m := by
  unfold positionsOf at h
  split at h
  case h_1 | h_2 | h_3 => exact List.mem_singleton.1 h ▸ hn
  case h_4 | h_5 | h_6 => exact H.of_listed hn h
  case h_7 =>
    obtain ⟨item, hi, hr⟩ := List.mem_filterMap.1 (List.mem_filter.1 h).1
    exact H.resolved (H.of_listed hn hi) hr
  case h_8 =>
    rcases List.mem_append.1 h with h | h
    · obtain ⟨property, hp, hm⟩ := List.mem_flatMap.1 h
      obtain ⟨item, hi, hr⟩ := List.mem_filterMap.1 hp
      exact H.of_under (H.resolved (H.of_lists hn hi) hr) hm
    · obtain ⟨index, hi, hm⟩ := List.mem_flatMap.1 h
      exact H.of_under (H.of_under hn hi) hm
  case h_9 | h_10 | h_14 => exact H.of_under hn h
  case h_11 => exact H.of_lists hn h
  case h_12 => exact (List.mem_append.1 h).elim (H.of_lists hn) (H.of_under hn)
  case h_13 => exact (List.mem_append.1 h).elim (H.of_under hn) (H.of_under hn)
  case h_15 =>
    simp only [List.mem_append] at h
    rcases h with ((h | h) | h) | h <;> exact H.of_under hn h
  case h_16 => cases h

/-- The parts of a form come with its node. -/
theorem Held.of_parts (H : Held g S) {n key value parts : Node} {line : Nat} {tag : String} (hn : S n)
    (h : g.resolve n = some (.mapping line tag [(key, value)])) (hp : g.resolve value = some parts) : S parts :=
  H.resolved (H.below (H.resolved hn h) (List.mem_singleton.2 rfl)) hp

theorem Held.of_positions (H : Held g S) {n m : Node} (hn : S n) (h : m ∈ positions g n) : S m := by
  unfold positions at h
  split at h
  · rename_i key value hr
    split at h
    · rename_i parts hp
      exact H.of_positionsOf (H.of_parts hn hr hp) h
    · cases h
  · cases h

theorem held_reached (g : Graph) (n : Node) : Held g fun m => ReflTransGen (Reaches g) n m where
  below hn hm := hn.tail (.inl hm)
  resolved hn hm := hn.tail (.inr hm)

end Held

/-! ### Aliases that lead to nodes -/

theorem mem_anchors {g : Graph} {anchor : Nat} {n : Node} (h : g.anchors.lookup anchor = some n) : (anchor, n) ∈ g.anchors := by
  obtain ⟨before, after, he, -⟩ := List.lookup_eq_some_iff.1 h
  exact he ▸ List.mem_append_right _ List.mem_cons_self

/-- The node is itself, or by its alias, one that is written out. -/
def Leading (g : Graph) (n : Node) : Prop :=
  ∃ m, g.resolve n = some m ∧ ∀ line name anchor, m ≠ .link line name anchor

/-- Each alias that can be come by from the node leads to a node that is written out. -/
def Linked (g : Graph) (n : Node) : Prop := ∀ m, ReflTransGen (Reaches g) n m → Leading g m

section Linked
variable {g : Graph} {n m : Node}

theorem Linked.reached (h : Linked g n) (hm : ReflTransGen (Reaches g) n m) : Linked g m := fun _ hk => h _ (hm.trans hk)

theorem Linked.position (h : Linked g n) (hm : m ∈ positions g n) : Linked g m :=
  h.reached ((held_reached g n).of_positions .refl hm)

theorem Linked.resolve_ne_none (h : Linked g n) : g.resolve n ≠ none := by
  obtain ⟨m, hm, -⟩ := h n .refl
  rw [hm]
  nofun

theorem Linked.below (h : Linked g n) (hm : m ∈ below n) : Linked g m := h.reached (.single (.inl hm))

theorem Linked.resolved (h : Linked g n) (hm : g.resolve n = some m) : Linked g m := h.reached (.single (.inr hm))

end Linked

end TypeCalculus.Document
