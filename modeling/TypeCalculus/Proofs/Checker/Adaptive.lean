import TypeCalculus.Checker.Adaptive

/-! What the adaptive cache holds. A lookup gives a value that was put under exactly its key, and the entries
    only ever shrink, except for the one that is put. How the two sides are balanced does not matter. -/

namespace TypeCalculus.Adaptive
variable {κ ν : Type}

/-- Everything the cache can answer with. -/
def entries (c : Adaptive κ ν) : List (κ × ν) := c.recent ++ c.frequent

theorem entries_subset {c c' : Adaptive κ ν} (hr : c'.recent ⊆ c.recent) (hf : c'.frequent ⊆ c.frequent) :
    c'.entries ⊆ c.entries := by
  intro e he
  rcases List.mem_append.1 he with h | h
  · exact List.mem_append_left _ (hr h)
  · exact List.mem_append_right _ (hf h)

variable [BEq κ]

theorem without_subset (entries : List (κ × ν)) (key : κ) : without entries key ⊆ entries :=
  fun _ h => (List.mem_filter.1 h).1

theorem putFirst_subset (size : Nat) (entries : List (κ × ν)) (key : κ) (value : ν) :
    putFirst size entries key value ⊆ (key, value) :: entries := by
  intro e he
  rcases List.mem_cons.1 (List.take_subset _ _ he) with rfl | h
  · exact List.mem_cons_self
  · exact List.mem_cons_of_mem _ (without_subset _ _ h)

theorem mem_of_lookup [LawfulBEq κ] {entries : List (κ × ν)} {key : κ} {value : ν}
    (h : entries.lookup key = some value) : (key, value) ∈ entries := by
  obtain ⟨before, after, rfl, -⟩ := List.lookup_eq_some_iff.1 h
  exact List.mem_append_right _ List.mem_cons_self

/-- A value that is found was put under the key. -/
theorem mem_of_get [LawfulBEq κ] {c : Adaptive κ ν} {key : κ} {value : ν} (h : (c.get key).1 = some value) :
    (key, value) ∈ c.entries := by
  unfold get at h
  split at h
  · rename_i v hv
    cases h
    exact List.mem_append_left _ (mem_of_lookup hv)
  · split at h
    · rename_i v hv
      cases h
      exact List.mem_append_right _ (mem_of_lookup hv)
    · cases h

theorem entries_get [LawfulBEq κ] (c : Adaptive κ ν) (key : κ) : (c.get key).2.entries ⊆ c.entries := by
  have put : ∀ {v}, (key, v) ∈ c.entries → putFirst c.size c.frequent key v ⊆ c.entries := by
    intro v hv e he
    rcases List.mem_cons.1 (putFirst_subset _ _ _ _ he) with rfl | h
    · exact hv
    · exact List.mem_append_right _ h
  intro e he
  unfold get at he
  split at he
  · rename_i v hv
    rcases List.mem_append.1 he with h | h
    · exact List.mem_append_left _ (without_subset _ _ h)
    · exact put (List.mem_append_left _ (mem_of_lookup hv)) h
  · split at he
    · rename_i v hv
      rcases List.mem_append.1 he with h | h
      · exact List.mem_append_left _ h
      · exact put (List.mem_append_right _ (mem_of_lookup hv)) h
    · exact he

theorem entries_dropOne (c : Adaptive κ ν) (ghostIsFrequent : Bool) :
    (c.dropOne ghostIsFrequent).entries ⊆ c.entries := by
  unfold dropOne
  dsimp only
  split
  · split
    · exact entries_subset (List.dropLast_subset _) (List.Subset.refl _)
    · exact List.Subset.refl _
  · split
    · exact entries_subset (List.Subset.refl _) (List.dropLast_subset _)
    · exact List.Subset.refl _

theorem entries_makeRoom (c : Adaptive κ ν) (ghostIsFrequent : Bool) :
    (c.makeRoom ghostIsFrequent).entries ⊆ c.entries := by
  unfold makeRoom
  split
  · exact entries_dropOne c ghostIsFrequent
  · exact List.Subset.refl _

/-- Putting an entry adds nothing else. -/
theorem entries_put (c : Adaptive κ ν) (key : κ) (value : ν) :
    (c.put key value).entries ⊆ (key, value) :: c.entries := by
  -- On either side the new entry goes in front of what a smaller cache `d` holds.
  have frequently : ∀ d : Adaptive κ ν, d.entries ⊆ c.entries →
      d.recent ++ putFirst d.size d.frequent key value ⊆ (key, value) :: c.entries := by
    intro d hd e he
    rcases List.mem_append.1 he with h | h
    · exact List.mem_cons_of_mem _ (hd (List.mem_append_left _ h))
    · rcases List.mem_cons.1 (putFirst_subset _ _ _ _ h) with rfl | h
      · exact List.mem_cons_self
      · exact List.mem_cons_of_mem _ (hd (List.mem_append_right _ h))
  have recently : ∀ d : Adaptive κ ν, d.entries ⊆ c.entries →
      putFirst d.size d.recent key value ++ d.frequent ⊆ (key, value) :: c.entries := by
    intro d hd e he
    rcases List.mem_append.1 he with h | h
    · rcases List.mem_cons.1 (putFirst_subset _ _ _ _ h) with rfl | h
      · exact List.mem_cons_self
      · exact List.mem_cons_of_mem _ (hd (List.mem_append_left _ h))
    · exact List.mem_cons_of_mem _ (hd (List.mem_append_right _ h))
  unfold put
  dsimp only
  split
  · exact frequently { c with recent := without c.recent key }
      (entries_subset (without_subset _ _) (List.Subset.refl _))
  · split
    · exact frequently c (List.Subset.refl _)
    · split
      · exact frequently (makeRoom { c with target := _ } false) (entries_makeRoom _ _)
      · split
        · exact frequently (makeRoom { c with target := _ } true) (entries_makeRoom _ _)
        · have room := recently (c.makeRoom false) (entries_makeRoom _ _)
          split <;> split <;> exact room

end TypeCalculus.Adaptive
