import TypeCalculus.Proofs.Ty.Inherited

/-! The normalising constructors leave what is in normal form as it is. An intersection needs what its members have in
    common besides the form (`Met`): none implies or excludes another, and a shape is behind other members with its
    text, where merging puts it. -/

namespace TypeCalculus.Ty

/-! ### Lists of types -/

theorem distinct_self {ts : List Ty} (h : ts.Pairwise fun a b => a.identical b = false) : distinct [] ts = ts := by
  have all : ∀ seen : List Ty, (∀ s ∈ seen, ∀ t ∈ ts, s.identical t = false) → distinct seen ts = ts := by
    induction ts with
    | nil => exact fun _ _ => rfl
    | cons t ts ih =>
      intro seen hseen
      obtain ⟨ht, hts⟩ := List.pairwise_cons.1 h
      have new : ¬seen.any (·.identical t) = true := by
        simpa using fun s hs => hseen s hs t List.mem_cons_self
      rw [distinct, if_neg new, ih hts]
      intro s hs u hu
      rcases List.mem_cons.1 hs with rfl | hs
      · exact ht u hu
      · exact hseen s hs u (List.mem_cons_of_mem _ hu)
  exact all [] (List.forall_mem_nil _)

theorem sortByText_self {ts : List Ty} (h : ts.Pairwise fun a b => a.print ≤ b.print) : sortByText ts = ts := by
  unfold sortByText
  rw [List.mergeSort_of_pairwise]
  · simp [Function.comp_def]
  · rw [List.pairwise_map]
    exact h.imp fun hab => decide_eq_true hab

/-- In the order of texts, the types of each text tell the whole list. -/
theorem eq_of_texts {xs ys : List Ty} (hx : xs.Pairwise fun a b => a.print ≤ b.print)
    (hy : ys.Pairwise fun a b => a.print ≤ b.print)
    (h : ∀ s, xs.filter (fun t => t.print = s) = ys.filter fun t => t.print = s) : xs = ys := by
  induction xs generalizing ys with
  | nil =>
    cases ys with
    | nil => rfl
    | cons y ys => simpa using h y.print
  | cons x xs ih =>
    cases ys with
    | nil => simpa using h x.print
    | cons y ys =>
      obtain ⟨hx₀, hx₁⟩ := List.pairwise_cons.1 hx
      obtain ⟨hy₀, hy₁⟩ := List.pairwise_cons.1 hy
      have least : ∀ {a b : Ty} {as bs : List Ty}, (∀ c ∈ bs, b.print ≤ c.print) →
          (a :: as).filter (fun t => t.print = a.print) = (b :: bs).filter (fun t => t.print = a.print) →
            b.print ≤ a.print := by
        intro a b as bs hb hf
        have ha : a ∈ (b :: bs).filter fun t => t.print = a.print := by
          rw [← hf, List.filter_cons_of_pos (by simp)]
          exact List.mem_cons_self
        rcases List.mem_cons.1 (List.mem_filter.1 ha).1 with rfl | ha
        · exact String.le_refl _
        · exact hb a ha
      have same : x.print = y.print := String.le_antisymm (least hx₀ (h y.print).symm) (least hy₀ (h x.print))
      have heads := h x.print
      rw [List.filter_cons_of_pos (by simp), List.filter_cons_of_pos (by simp [same])] at heads
      obtain ⟨rfl, tails⟩ := List.cons.inj heads
      refine congrArg _ (ih hx₁ hy₁ fun s => ?_)
      by_cases hs : x.print = s
      · exact hs ▸ tails
      · simpa [hs] using h s

/-! ### Unions -/

theorem unionMembers_self {t : Ty} (hu : ∀ ms, t ≠ union ms) (ha : t ≠ absent) : t.unionMembers = [t] := by
  cases t with
  | absent => exact absurd rfl ha
  | union ms => exact absurd rfl (hu ms)
  | _ => rw [unionMembers]; all_goals simp

theorem unionMembersAll_self {ms : List Ty} (h : ∀ m ∈ ms, m.isUnionMember = true) (ha : absent ∉ ms) :
    unionMembersAll ms = ms := by
  induction ms with
  | nil => rfl
  | cons m ms ih =>
    have single : m.unionMembers = [m] := by
      refine unionMembers_self ?_ fun he => ha (he ▸ List.mem_cons_self)
      rintro ns rfl
      cases h _ List.mem_cons_self
    rw [unionMembersAll, single, ih (fun u hu => h u (List.mem_cons_of_mem _ hu)) fun hm => ha (List.mem_cons_of_mem _ hm)]
    rfl

/-- The union of the members of a union is the union. -/
theorem unionOf_members {ms : List Ty} (h : UnionForm ms) (ha : absent ∉ ms) : unionOf ms = union ms := by
  have hany : ¬ms.any isAny = true := by
    intro hm
    obtain ⟨m, hm, he⟩ := List.any_eq_true.1 hm
    cases m with
    | any => cases h.single _ hm
    | _ => cases he
  have hunknown : ¬ms.any isUnknown = true := by
    intro hm
    obtain ⟨m, hm, he⟩ := List.any_eq_true.1 hm
    cases m with
    | unknown => cases h.single _ hm
    | _ => cases he
  have kept : ms.filter (fun t => !isRedundantIn ms t) = ms := by
    refine List.filter_eq_self.2 fun m hm => ?_
    cases m with
    | never => cases h.single _ hm
    | literal base text =>
      have : holdsPrim ms base = false := by
        rw [Bool.eq_false_iff]
        intro hp
        obtain ⟨u, hu, he⟩ := List.any_eq_true.1 hp
        cases u with
        | prim q =>
          cases beq_iff_eq.1 he
          exact h.uncovered base text hm hu
        | _ => cases he
      rw [isRedundantIn, this]
      rfl
    | _ => rfl
  unfold unionOf
  rw [unionMembersAll_self h.single ha]
  dsimp only
  rw [if_neg hany, if_neg hunknown, kept, distinct_self h.apart]
  have two := h.two
  cases ms with
  | nil => exact absurd two (by simp)
  | cons m ms =>
    cases ms with
    | nil => exact absurd two (by simp)
    | cons => exact congrArg union (sortByText_self h.sorted)

/-! ### Intersections -/

theorem knownMembers_self {ms : List Ty} (h : ∀ m ∈ ms, m.isMeetMember = true) (ha : absent ∉ ms) : knownMembers ms = ms := by
  have members : meetMembersAll ms = ms := by
    induction ms with
    | nil => rfl
    | cons m ms ih =>
      have single : m.meetMembers = [m] := by
        cases m with
        | absent => exact absurd List.mem_cons_self ha
        | intersection => cases h _ List.mem_cons_self
        | _ => rw [meetMembers]; all_goals simp
      rw [meetMembersAll, single, ih (fun u hu => h u (List.mem_cons_of_mem _ hu)) fun hm => ha (List.mem_cons_of_mem _ hm)]
      rfl
  unfold knownMembers
  rw [members]
  refine List.filter_eq_self.2 fun m hm => ?_
  cases m with
  | unknown => cases h _ hm
  | _ => rfl

theorem splitAtUnion_members {ms : List Ty} (h : ∀ m ∈ ms, m.isMeetMember = true) : splitAtUnion ms = none := by
  cases hs : splitAtUnion ms with
  | none => rfl
  | some split =>
    obtain ⟨before, members, after⟩ := split
    rw [splitAtUnion_eq_some hs] at h
    cases h (union members) (List.mem_append_right _ List.mem_cons_self)

theorem gatherShapes_after {meet : List Ty → Ty} (s : Shape) {ts : List Ty} (h : ∀ t ∈ ts, t.isShape = false) :
    gatherShapes meet (some s) ts = ts ++ [s.toTy] := by
  induction ts with
  | nil => rfl
  | cons t ts ih =>
    have ht := h t List.mem_cons_self
    rw [gatherShapes.eq_def]
    cases t with
    | object => cases ht
    | _ => exact congrArg _ (ih fun u hu => h u (List.mem_cons_of_mem _ hu))

/-- A single shape is put behind the other types. -/
theorem gatherShapes_single {meet : List Ty → Ty} {ts : List Ty}
    (h : ts.Pairwise fun a b => ¬(a.isShape = true ∧ b.isShape = true)) :
    gatherShapes meet none ts = ts.filter (fun t => !t.isShape) ++ ts.filter (·.isShape) := by
  induction ts with
  | nil => rfl
  | cons t ts ih =>
    obtain ⟨ht, hts⟩ := List.pairwise_cons.1 h
    cases hs : t.isShape with
    | false =>
      have step : gatherShapes meet none (t :: ts) = t :: gatherShapes meet none ts := by
        rw [gatherShapes]
        rintro props index rfl
        cases hs
      rw [step, ih hts, List.filter_cons_of_pos (by rw [hs]; rfl), List.filter_cons_of_neg (by rw [hs]; exact Bool.false_ne_true)]
      rfl
    | true =>
      have none' : ∀ u ∈ ts, u.isShape = false := by
        intro u hu
        rw [Bool.eq_false_iff]
        exact fun hus => ht u hu ⟨hs, hus⟩
      cases t with
      | object props index =>
        have step : gatherShapes meet none (object props index :: ts) = gatherShapes meet (some ⟨props, index⟩) ts := rfl
        have others : (object props index :: ts).filter (fun t => !t.isShape) = ts := by
          rw [List.filter_cons_of_neg (by rw [hs]; exact Bool.false_ne_true)]
          exact List.filter_eq_self.2 fun u hu => by rw [none' u hu]; rfl
        have shapes : (object props index :: ts).filter (·.isShape) = [object props index] := by
          rw [List.filter_cons_of_pos hs, List.filter_eq_nil_iff.2 fun u hu => by rw [none' u hu]; exact Bool.false_ne_true]
        rw [step, gatherShapes_after _ none', others, shapes]
        rfl
      | _ => cases hs

theorem pruneAgainst_self {x : Ty} {ys : List Ty} (h : ∀ y ∈ ys, Coexist x y) : pruneAgainst x ys = some (true, ys) := by
  induction ys with
  | nil => rfl
  | cons y ys ih =>
    have rest := ih fun z hz => h z (List.mem_cons_of_mem _ hz)
    rw [pruneAgainst, rest]
    split
    · rfl
    · rename_i hopen
      rw [Bool.not_eq_true, Bool.or_eq_false_iff, Bool.not_eq_false', Bool.not_eq_false'] at hopen
      obtain ⟨hxy, hyx, hd⟩ := h y List.mem_cons_self hopen.1 hopen.2
      rw [hxy, hyx, hd]
      rfl

theorem prune_self {ts : List Ty} (h : ts.Pairwise Coexist) : prune ts = some ts := by
  induction ts with
  | nil => rw [prune]
  | cons x xs ih =>
    obtain ⟨hx, hxs⟩ := List.pairwise_cons.1 h
    have against := pruneAgainst_self hx
    rw [prune]
    split
    · rename_i hp
      rw [against] at hp
      cases hp
    · rename_i hp
      rw [against] at hp
      cases hp
      rw [ih hxs]
      rfl

/-- Among types of one text, a single shape is the last already. -/
theorem shapes_last {ts : List Ty} (h : ts.Pairwise fun a _ => a.isShape = false) :
    ts.filter (fun t => !t.isShape) ++ ts.filter (·.isShape) = ts := by
  induction ts with
  | nil => rfl
  | cons t ts ih =>
    obtain ⟨ht, hts⟩ := List.pairwise_cons.1 h
    by_cases alone : ts = []
    · subst alone
      cases hs : t.isShape <;> simp [hs]
    · obtain ⟨u, hu⟩ := List.exists_mem_of_ne_nil ts alone
      have hs := ht u hu
      rw [List.filter_cons_of_pos (by rw [hs]; rfl), List.filter_cons_of_neg (by rw [hs]; nofun), List.cons_append, ih hts]

/-- Putting the shape of an intersection last and sorting the members again gives the same order. -/
theorem sortByText_gathered {ms : List Ty} (hs : ms.Pairwise fun a b => a.print ≤ b.print)
    (hl : ms.Pairwise fun a b => a.isShape = true → a.print ≠ b.print) :
    sortByText (ms.filter (fun t => !t.isShape) ++ ms.filter (·.isShape)) = ms := by
  refine eq_of_texts (sortByText_pairwise _) hs fun s => ?_
  have last : (ms.filter fun t => t.print = s).Pairwise fun a _ => a.isShape = false := by
    refine (hl.filter _).imp_of_mem fun {a b} ha hb hab => ?_
    rw [Bool.eq_false_iff]
    refine fun sa => hab sa ?_
    rw [of_decide_eq_true (List.mem_filter.1 ha).2, of_decide_eq_true (List.mem_filter.1 hb).2]
  have swap : ∀ p : Ty → Bool, (ms.filter p).filter (fun t => t.print = s) = (ms.filter fun t => t.print = s).filter p := by
    intro p
    rw [List.filter_filter, List.filter_filter]
    exact List.filter_congr fun t _ => Bool.and_comm _ _
  rw [sortByText_stable, List.filter_append, swap, swap, shapes_last last]

/-- The meet of the members of an intersection is the intersection, however deep shapes are merged. -/
theorem meetAt_members {level : Nat} {ms : List Ty} (h : MeetForm ms) (hm : Met ms) :
    meetAt level ms = intersection ms := by
  have known := knownMembers_self h.single hm.present
  have hnever : ¬(knownMembers ms).any isNever = true := by
    rw [known]
    intro hn
    obtain ⟨m, hmem, he⟩ := List.any_eq_true.1 hn
    cases m with
    | never => cases h.single _ hmem
    | _ => cases he
  have hany : ¬(knownMembers ms).any isAny = true := by
    rw [known]
    intro hn
    obtain ⟨m, hmem, he⟩ := List.any_eq_true.1 hn
    cases m with
    | any => cases h.single _ hmem
    | _ => cases he
  have hunion : splitAtUnion (knownMembers ms) = none := by
    rw [known]
    exact splitAtUnion_members h.single
  have close : ∀ meet : List Ty → Ty, closeMeet (gatherShapes meet none (knownMembers ms)) = intersection ms := by
    intro meet
    have perm : (ms.filter (fun t => !t.isShape) ++ ms.filter (·.isShape)).Perm ms :=
      List.perm_append_comm.trans (List.filter_append_perm _ _)
    have apart := perm.symm.pairwise h.apart fun {a b} hab => by
      rw [Bool.eq_false_iff]
      intro hba
      rw [identical_symm hba] at hab
      cases hab
    have coexist := perm.symm.pairwise hm.coexist Coexist.symm
    have sorted := sortByText_gathered h.sorted hm.shapeLast
    have two := perm.length_eq.symm ▸ h.two
    rw [known, gatherShapes_single h.oneShape]
    generalize ms.filter (fun t => !t.isShape) ++ ms.filter (·.isShape) = gathered at *
    unfold closeMeet
    rw [distinct_self apart, prune_self coexist]
    match gathered, two with
    | _ :: _ :: _, _ => exact congrArg intersection sorted
  cases level with
  | zero => rw [meetAt_zero hnever hany hunion, close]
  | succ level => rw [meetAt_succ hnever hany hunion, close]

/-- The intersection of the members of an intersection is the intersection. -/
theorem meetOf_members {ms : List Ty} (h : MeetForm ms) (hm : Met ms) : meetOf ms = intersection ms :=
  meetAt_members h hm

/-! ### Templates and shapes -/

theorem templateAfter_open (done : List (Segment Ty)) {t : Ty} (ht : t.isOpenHole = true) (rest : List (Segment Ty)) :
    templateAfter done (.hole t :: rest) = templateAfter (.hole t :: done) rest := by
  cases t with
  | prim p =>
    cases p with
    | boolean | null | undefined | symbol => cases ht
    | _ =>
      rw [templateAfter, if_neg (by simp [isStringLike, isNever])]
      all_goals simp
  | literal | union | template | never => cases ht
  | _ =>
    have hl : isStringLike _ = true := ht
    rw [templateAfter, if_neg (by rw [hl]; simp [isNever])]
    all_goals simp

/-- Segments whose texts are filled and joined and whose holes are open are read as they are. -/
theorem templateAfter_self {done segments : List (Segment Ty)} (hf : .text "" ∉ segments)
    (hj : TextsJoined (done.reverse ++ segments)) (hh : ∀ t ∈ holes segments, t.isOpenHole = true) :
    templateAfter done segments = closeTemplate (done.reverse ++ segments) := by
  induction segments generalizing done with
  | nil => rw [templateAfter, List.append_nil]
  | cons s rest ih =>
    have moved : done.reverse ++ s :: rest = (s :: done).reverse ++ rest := by simp
    rw [moved] at hj ⊢
    have hf' : Segment.text "" ∉ rest := fun hm => hf (List.mem_cons_of_mem _ hm)
    cases s with
    | text s =>
      have filled : s ≠ "" := by
        rintro rfl
        exact hf List.mem_cons_self
      have pushed : pushText done s = .text s :: done := by
        unfold pushText
        rw [if_neg filled]
        split
        · rename_i t before
          refine absurd ?_ (hj t s)
          exact ⟨before.reverse, rest, by simp⟩
        · rfl
      rw [templateAfter, pushed]
      exact ih hf' hj hh
    | hole t =>
      rw [templateAfter_open done (hh t List.mem_cons_self)]
      exact ih hf' hj fun u hu => hh u (List.mem_cons_of_mem _ hu)

/-- The template of the segments of a template is the template. -/
theorem templateOf_segments {segments : List (Segment Ty)} (h : TemplateForm segments) :
    templateOf segments = template segments := by
  have read : templateOf segments = closeTemplate segments := @templateAfter_self [] segments h.filled h.joined h.holes
  rw [read]
  unfold closeTemplate
  split
  · exact absurd rfl h.open_
  · exact absurd rfl h.open_
  · exact absurd rfl h.notString
  · rfl

/-! ### Rebuilding -/

section Rebuild
variable {m : Type → Type} [Monad m] [LawfulMonad m] (R : Results m) {f : Ty → m Ty}

theorem mapM_self {α : Type} {g : α → m α} {xs : List α} (h : ∀ x ∈ xs, R.All (· = x) (g x)) :
    R.All (· = xs) (xs.mapM g) := by
  induction xs with
  | nil =>
    rw [List.mapM_nil]
    exact R.pure rfl
  | cons x xs ih =>
    rw [List.mapM_cons]
    refine R.bind (h x List.mem_cons_self) fun y hy => ?_
    refine R.bind (ih fun z hz => h z (List.mem_cons_of_mem _ hz)) fun ys hys => R.pure ?_
    rw [hy, hys]

omit [LawfulMonad m] in
theorem mapHole_self {s : Segment Ty} (h : ∀ t, s = .hole t → t ≠ absent ∧ R.All (· = t) (f t)) :
    R.All (· = s) (mapHole f s) := by
  cases s with
  | text s => exact R.pure rfl
  | hole t =>
    obtain ⟨ht, hf⟩ := h t rfl
    refine R.bind hf fun u hu => R.pure ?_
    rw [hu]
    cases t with
    | absent => exact absurd rfl ht
    | _ => rfl

/-- A type in normal form is rebuilt as it is from parts that stay, if it is not a conditional. -/
theorem rebuild_self {t : Ty} (ht : NodeForm t) (hu : ∀ ms, t = union ms → absent ∉ ms)
    (hm : ∀ ms, t = intersection ms → Met ms) (hcond : t.isConditional = false)
    (hf : ∀ u ∈ t.parts, R.All (· = u) (f u)) : R.All (· = t) (t.rebuild f) := by
  have all : ∀ {ts : List Ty}, (∀ u ∈ ts, u ∈ t.parts) → R.All (· = ts) (ts.mapM f) :=
    fun h => mapM_self R fun u hu => hf u (h u hu)
  have row : t.isRow = true → R.All (· = t) (t.rebuild f) := by
    intro hr
    rw [rebuild_row ht hr, map_eq_pure_bind]
    refine R.bind (all fun _ hu => hu) fun us hus => R.pure ?_
    rw [hus, refill_parts hr]
  cases t with
  | template segments =>
    have hole : ∀ s ∈ segments, R.All (· = s) (mapHole f s) := by
      refine fun s hs => mapHole_self R ?_
      rintro u rfl
      refine ⟨?_, hf u (mem_holes hs)⟩
      rintro rfl
      cases ht.holes absent (mem_holes hs)
    refine R.bind (mapM_self R hole) fun ss hss => R.pure ?_
    rw [hss, templateOf_segments ht]
  | object | array | tuple | reference | function | keyOf | access | mapping => exact row rfl
  | union members =>
    refine R.bind (all fun _ hu => hu) fun us hus => R.pure ?_
    rw [hus, unionOf_members ht (hu members rfl)]
  | intersection members =>
    refine R.bind (all fun _ hu => hu) fun us hus => R.pure ?_
    rw [hus, meetOf_members ht (hm members rfl)]
  | infer name constraint =>
    rw [rebuild]
    split
    · exact R.pure rfl
    · rename_i hc
      refine R.bind (hf constraint ?_) fun u hu => R.pure (by rw [hu])
      cases constraint with
      | absent => exact absurd rfl hc
      | _ => exact List.mem_cons_self
  | conditional => cases hcond
  | _ => exact R.pure rfl

end Rebuild

/-! ### Types made by constructors -/

/-- What the constructors of unions and intersections see to besides the form. -/
structure TidyNode (t : Ty) : Prop where
  union : ∀ ms, t = union ms → absent ∉ ms
  meet : ∀ ms, t = intersection ms → Met ms

/-- Every union and every intersection of the tree is as its constructor makes it. -/
def Tidy : Ty → Prop := Throughout parts TidyNode

/-- The type is made by the normalising constructors. -/
structure Built (t : Ty) : Prop where
  normal : Normal t
  tidy : Tidy t

theorem Built.part {t u : Ty} (h : Built t) (ht : t.isParam = false) (hu : u ∈ t.parts) : Built u := by
  refine ⟨h.normal.child ?_, h.tidy.under hu⟩
  cases t with
  | param => cases ht
  | _ => exact hu

theorem tidyNode_of_structural {t : Ty} (h : t.isStructural = true) : TidyNode t := by
  refine ⟨?_, ?_⟩
  · rintro ms rfl
    cases h
  · rintro ms rfl
    cases h

theorem inherited_tidy : Inherited Tidy :=
  inherited_throughout (fun _ => rfl) (fun _ => rfl) (fun _ => rfl) tidyNode_of_structural
    (fun ha => ⟨by rintro _ ⟨⟩; exact ha, nofun⟩) fun hm => ⟨nofun, by rintro _ ⟨⟩; exact hm⟩

theorem tidyNode_of_pending {t : Ty} (h : t.isPending = true ∨ t.kind? = some .reference) : TidyNode t := by
  refine ⟨?_, ?_⟩
  · rintro ms rfl
    rcases h with h | h <;> cases h
  · rintro ms rfl
    rcases h with h | h <;> cases h

theorem built_atom {t : Ty} (ht : t.isAtom = true) : Built t := by
  refine ⟨carried_normal.atom ht, inherited_tidy.leaf ?_ ?_⟩ <;> cases t <;> first | rfl | cases ht

theorem built_param (name : String) : Built (param name absent absent) := by
  refine ⟨⟨trivial, fun u hu => ?_⟩, tidyNode_of_pending (.inl rfl), nofun⟩
  simp only [children, List.mem_cons, List.not_mem_nil, or_false, or_self] at hu
  exact hu ▸ normal_absent

theorem built_plain {t : Ty} (ht : t.isPlain = true) (h : ∀ u ∈ t.parts, Built u) : Built t := by
  refine ⟨carried_normal.plain ht fun u hu => (h u hu).normal, ?_, fun u hu => (h u hu).tidy⟩
  cases t with
  | array | tuple | function => exact tidyNode_of_structural rfl
  | infer | keyOf | access | mapping => exact tidyNode_of_pending (.inl rfl)
  | reference => exact tidyNode_of_pending (.inr rfl)
  | _ => cases ht

theorem built_conditional {check bound yes no : Ty} {distribute : Bool} (hd : distribute = true → check.isParam = true)
    (hc : Built check) (hb : Built bound) (hy : Built yes) (hn : Built no) :
    Built (conditional check bound yes no distribute) := by
  refine ⟨carried_normal.conditional hd hc.normal hb.normal hy.normal hn.normal, tidyNode_of_pending (.inl rfl), ?_⟩
  simp only [parts, List.forall_mem_cons]
  exact ⟨hc.tidy, hb.tidy, hy.tidy, hn.tidy, List.forall_mem_nil _⟩

theorem built_object {props : List (Property Ty)} {index : Option (IndexSignature Ty)} (ascending : Shape.Ascending props)
    (hp : ∀ p ∈ props, Built p.type) (hi : ∀ i, index = some i → Built i.value) : Built (object props index) :=
  ⟨normal_object.2 ⟨ascending, fun p h => (hp p h).normal, fun i h => (hi i h).normal⟩,
    inherited_tidy.object.2 ⟨fun p h => (hp p h).tidy, fun i h => (hi i h).tidy⟩⟩

theorem built_unionOf {ts : List Ty} (h : ∀ t ∈ ts, Built t) : Built (unionOf ts) :=
  ⟨normal_unionOf fun t ht => (h t ht).normal, inherited_tidy.unionOf fun t ht => (h t ht).tidy⟩

theorem built_meetOf {ts : List Ty} (h : ∀ t ∈ ts, Built t) : Built (meetOf ts) :=
  ⟨normal_meetOf fun t ht => (h t ht).normal, inherited_tidy.meetOf fun t ht => (h t ht).tidy⟩

theorem built_templateOf {segments : List (Segment Ty)} (h : ∀ t ∈ holes segments, Built t) : Built (templateOf segments) :=
  ⟨normal_templateOf fun t ht => (h t ht).normal, inherited_tidy.templateOf fun t ht => (h t ht).tidy⟩

/-- The union of two members in order, neither of which is a literal. -/
theorem unionOf_pair_self {a b : Ty} (single : (a.isUnionMember && b.isUnionMember) = true)
    (present : (a.isAbsent || b.isAbsent) = false) (literals : (a.isLiteral || b.isLiteral) = false)
    (apart : a.identical b = false) (sorted : a.print ≤ b.print) : unionOf [a, b] = union [a, b] := by
  simp only [Bool.and_eq_true, Bool.or_eq_false_iff] at single present literals
  have form : UnionForm [a, b] := by
    refine ⟨Nat.le_refl _, by simpa using single, fun base text hm => ?_, by simpa using apart, by simpa using sorted⟩
    rcases List.mem_cons.1 hm with rfl | hm
    · cases literals.1
    · cases List.mem_singleton.1 hm
      cases literals.2
  refine unionOf_members form fun hm => ?_
  rcases List.mem_cons.1 hm with rfl | hm
  · cases present.1
  · cases List.mem_singleton.1 hm
    cases present.2

theorem built_pair {a b : Ty} (ha : Built a) (hb : Built b) (single : (a.isUnionMember && b.isUnionMember) = true)
    (present : (a.isAbsent || b.isAbsent) = false) (literals : (a.isLiteral || b.isLiteral) = false)
    (apart : a.identical b = false) (sorted : a.print ≤ b.print) : Built (union [a, b]) := by
  rw [← unionOf_pair_self single present literals apart sorted]
  exact built_unionOf (List.forall_mem_cons.2 ⟨ha, List.forall_mem_singleton.2 hb⟩)

end TypeCalculus.Ty
