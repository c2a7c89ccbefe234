import TypeCalculus.Proofs.Ty.NormalForm
import TypeCalculus.Ty.Template

/-! Templates come out in normal form. The segments read so far keep the form of a template, except that they
    may still be a text or a hole alone (`Started`); the end of the template settles these cases. -/

namespace TypeCalculus.Ty

/-- A hole that is a union gives one template for each member. -/
theorem templateAfter_union (done : List (Segment Ty)) (members : List Ty) (rest : List (Segment Ty)) :
    templateAfter done (.hole (union members) :: rest) = unionOf (members.map fun m =>
      if m.isAbsent then templateAfter done rest else templateAfter done (.hole m :: rest)) := by
  rw [templateAfter]
  exact congrArg unionOf (List.attach_map_val (f := fun m : Ty =>
    if m.isAbsent then templateAfter done rest else templateAfter done (.hole m :: rest)))

/-- Putting a template together gives types with `P` from holes with `H`, where `D` is what holds of the segments read so
    far. -/
structure Splicing (H P : Ty → Prop) (D : List (Segment Ty) → Prop) : Prop where
  never : P never
  unionMember : ∀ {ms m}, H (union ms) → m ∈ ms → H m
  unionOf : ∀ {ts}, (∀ t ∈ ts, P t) → P (unionOf ts)
  text : ∀ {done}, D done → ∀ s, D (pushText done s)
  inline : ∀ {done inner}, D done → H (template inner) → D (pushSegments done inner)
  hole : ∀ {done t}, D done → H t → t.isOpenHole = true → D (.hole t :: done)
  close : ∀ {done}, D done → P (closeTemplate done.reverse)

theorem Splicing.templateAfter {H P : Ty → Prop} {D : List (Segment Ty) → Prop} (S : Splicing H P D)
    {done segments : List (Segment Ty)} (hd : D done) (hs : ∀ t ∈ holes segments, H t) :
    P (templateAfter done segments) := by
  induction done, segments using templateAfter.induct with
  | case1 done =>
    rw [Ty.templateAfter]
    exact S.close hd
  | case2 done s rest ih =>
    rw [Ty.templateAfter]
    exact ih (S.text hd s) hs
  | case3 done s rest =>
    rw [Ty.templateAfter, if_pos rfl]
    exact S.never
  | case4 done base s rest hb ih =>
    rw [Ty.templateAfter, if_neg hb]
    exact ih (S.text hd s) (List.forall_mem_cons.1 hs).2
  | case5 done rest ih | case6 done rest ih =>
    rw [Ty.templateAfter]
    exact ih (S.text hd _) (List.forall_mem_cons.1 hs).2
  | case7 done rest ih₁ ih₂ =>
    have hrest := (List.forall_mem_cons.1 hs).2
    rw [Ty.templateAfter]
    exact S.unionOf (List.forall_mem_cons.2
      ⟨ih₁ (S.text hd _) hrest, List.forall_mem_singleton.2 (ih₂ (S.text hd _) hrest)⟩)
  | case8 done rest =>
    rw [Ty.templateAfter]
    exact S.never
  | case9 done inner rest ih =>
    obtain ⟨hi, hrest⟩ := List.forall_mem_cons.1 hs
    rw [Ty.templateAfter]
    exact ih (S.inline hd hi) hrest
  | case10 done members rest ih ihm =>
    obtain ⟨hm, hrest⟩ := List.forall_mem_cons.1 hs
    rw [templateAfter_union]
    refine S.unionOf (List.forall_mem_map.2 fun m hmem => ?_)
    split
    · exact ih hd hrest
    · exact ihm m hmem hd (List.forall_mem_cons.2 ⟨S.unionMember hm hmem, hrest⟩)
  | case11 done t rest h₁ h₂ h₃ h₄ h₅ h₆ h₇ hc =>
    rw [Ty.templateAfter, if_pos hc]
    · exact S.never
    all_goals assumption
  | case12 done t rest h₁ h₂ h₃ h₄ h₅ h₆ h₇ hc ih =>
    obtain ⟨ht, hrest⟩ := List.forall_mem_cons.1 hs
    have ho : t.isOpenHole = true := by
      cases t with
      | prim p => cases p <;> simp_all [isOpenHole, isStringLike]
      | never => exact absurd rfl hc
      | _ => simp_all [isOpenHole]
    rw [Ty.templateAfter, if_neg hc]
    · exact ih (S.hole hd ht ho) hrest
    all_goals assumption

theorem templateOf_ne_absent (segments : List (Segment Ty)) : templateOf segments ≠ absent := by
  have made : Splicing (fun _ => True) (· ≠ absent) fun _ => True :=
    ⟨nofun, fun _ _ => trivial, fun _ => unionOf_ne_absent _, fun _ _ => trivial, fun _ _ => trivial,
      fun _ _ _ => trivial, fun _ => by unfold closeTemplate; split <;> nofun⟩
  exact made.templateAfter trivial fun _ _ => trivial

/-! ### Texts that meet -/

/-- No text stands next to a text. -/
def TextsJoined (segments : List (Segment Ty)) : Prop := ∀ s t, ¬[.text s, .text t] <:+: segments

theorem textsJoined_hole {t : Ty} {rest : List (Segment Ty)} :
    TextsJoined (.hole t :: rest) ↔ TextsJoined rest := by
  unfold TextsJoined
  simp [List.infix_cons_iff]

theorem textsJoined_text {s : String} {rest : List (Segment Ty)} :
    TextsJoined (.text s :: rest) ↔ (∀ t rest', rest ≠ .text t :: rest') ∧ TextsJoined rest := by
  unfold TextsJoined
  constructor
  · intro h
    refine ⟨?_, fun u v huv => h u v (List.infix_cons huv)⟩
    rintro t rest' rfl
    exact h s t (List.IsPrefix.isInfix ⟨rest', rfl⟩)
  · rintro ⟨hne, hr⟩ u v huv
    rcases List.infix_cons_iff.1 huv with hp | hi
    · obtain ⟨rest', he⟩ := hp
      exact hne v rest' (List.cons.inj he).2.symm
    · exact hr u v hi

theorem textsJoined_reverse {segments : List (Segment Ty)} (h : TextsJoined segments) :
    TextsJoined segments.reverse := by
  intro s t hst
  refine h t s ?_
  have := List.reverse_infix.2 hst
  rwa [List.reverse_reverse] at this

/-! ### The segments read so far -/

/-- The segments read so far, last one first: texts are not empty and not next to each other, and holes are
    those of a normal form. -/
structure Started (done : List (Segment Ty)) : Prop where
  filled : .text "" ∉ done
  joined : TextsJoined done
  holes : ∀ t ∈ holes done, t.isOpenHole = true ∧ Normal t

theorem Started.nil : Started [] where
  filled := List.not_mem_nil
  joined _ _ h := by simp at h
  holes _ h := by cases h

theorem Started.hole {done : List (Segment Ty)} {t : Ty} (h : Started done) (ho : t.isOpenHole = true)
    (hn : Normal t) : Started (.hole t :: done) where
  filled hm := by
    rcases List.mem_cons.1 hm with hm | hm
    · cases hm
    · exact h.filled hm
  joined := textsJoined_hole.2 h.joined
  holes u hu := by
    rcases List.mem_cons.1 hu with rfl | hu
    · exact ⟨ho, hn⟩
    · exact h.holes u hu

/-- A text goes in front if it is not empty and no text is there. -/
theorem Started.text {done : List (Segment Ty)} {s : String} (h : Started done) (hs : s ≠ "")
    (hd : ∀ t rest, done ≠ .text t :: rest) : Started (.text s :: done) where
  filled hm := by
    rcases List.mem_cons.1 hm with hm | hm
    · cases hm
      exact hs rfl
    · exact h.filled hm
  joined := textsJoined_text.2 ⟨hd, h.joined⟩
  holes := h.holes

theorem Started.tail {done : List (Segment Ty)} {s : String} (h : Started (.text s :: done)) :
    Started done ∧ ∀ t rest, done ≠ .text t :: rest :=
  have joined := textsJoined_text.1 h.joined
  ⟨⟨fun hm => h.filled (List.mem_cons_of_mem _ hm), joined.2, h.holes⟩, joined.1⟩

theorem Started.pushText {done : List (Segment Ty)} (h : Started done) (s : String) : Started (pushText done s) := by
  unfold Ty.pushText
  split
  · exact h
  · rename_i hs
    split
    · rename_i t rest
      obtain ⟨hr, hne⟩ := h.tail
      refine hr.text (fun he => hs ?_) hne
      exact (String.append_eq_empty_iff.1 he).2
    · rename_i hne
      exact h.text hs hne

theorem Started.pushSegments {done : List (Segment Ty)} (h : Started done) :
    {inner : List (Segment Ty)} → (∀ t ∈ Ty.holes inner, t.isOpenHole = true ∧ Normal t) →
      Started (pushSegments done inner)
  | [], _ => h
  | .text s :: _, hi => (h.pushText s).pushSegments hi
  | .hole t :: _, hi =>
    have ht := hi t List.mem_cons_self
    (h.hole ht.1 ht.2).pushSegments fun u hu => hi u (List.mem_cons_of_mem _ hu)

/-! ### Whole templates -/

theorem holes_reverse (segments : List (Segment Ty)) : holes segments.reverse = (holes segments).reverse := by
  simp only [holes, List.filterMap_reverse]

/-- Segments with joined texts and no hole are at most one text. -/
theorem eq_text_of_no_holes {segments : List (Segment Ty)} (h : TextsJoined segments) (hh : holes segments = []) :
    segments = [] ∨ ∃ s, segments = [.text s] := by
  match segments, hh with
  | [], _ => exact Or.inl rfl
  | [.text s], _ => exact Or.inr ⟨s, rfl⟩
  | .text s :: .text t :: rest, _ => exact absurd rfl ((textsJoined_text.1 h).1 t rest)
  | .hole _ :: _, hh | .text _ :: .hole _ :: _, hh => cases hh

theorem normal_closeTemplate {done : List (Segment Ty)} (h : Started done) : Normal (closeTemplate done.reverse) := by
  have joined := textsJoined_reverse h.joined
  have inHole : ∀ t ∈ holes done.reverse, t.isOpenHole = true ∧ Normal t := by
    intro t ht
    rw [holes_reverse, List.mem_reverse] at ht
    exact h.holes t ht
  have filled : Segment.text "" ∉ done.reverse := by simpa using h.filled
  generalize done.reverse = segments at *
  unfold closeTemplate
  split
  · exact normal_literal _ _
  · exact normal_literal _ _
  · exact normal_prim _
  · rename_i h₀ h₁ h₂
    refine ⟨⟨fun hh => ?_, h₂, filled, joined, fun t ht => (inHole t ht).1⟩, fun t ht => (inHole t ht).2⟩
    rcases eq_text_of_no_holes joined hh with he | ⟨s, he⟩
    · exact h₀ he
    · exact h₁ s he

theorem splicing_normal : Splicing Normal Normal Started where
  never := normal_never
  unionMember h hm := h.child hm
  unionOf := normal_unionOf
  text hd := hd.pushText
  inline hd hi := hd.pushSegments fun t ht => ⟨hi.form.holes t ht, hi.child ht⟩
  hole hd ht ho := hd.hole ho ht
  close := normal_closeTemplate

/-- Templates are put into normal form. -/
theorem normal_templateOf {segments : List (Segment Ty)} (h : ∀ t ∈ holes segments, Normal t) :
    Normal (templateOf segments) :=
  splicing_normal.templateAfter Started.nil h

end TypeCalculus.Ty
