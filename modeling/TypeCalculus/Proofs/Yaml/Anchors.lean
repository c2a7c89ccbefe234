import TypeCalculus.Proofs.Document.Linked

/-! Aliases of a document that was read lead to nodes. Anchors are numbered one after another; an alias is given the number of
    one that was opened before, and reading the node behind an anchor does not end before that anchor is closed
    (`Reads`). -/

namespace TypeCalculus.Yaml
open Document (below Reaches Held Leading)
open Relation (ReflTransGen)

/-- The node is written out. -/
def Node.Proper (n : Node) : Prop := ∀ line name anchor, n ≠ .link line name anchor

/-- The aliases written in the node have numbers below the bound. -/
def Node.LinksBelow (bound : Nat) (n : Node) : Prop :=
  ∀ m, ReflTransGen (fun a b => b ∈ below a) n m → ∀ line name anchor, m = .link line name anchor → anchor < bound

namespace Node
variable {bound bound' : Nat} {n : Node}

theorem LinksBelow.mono (h : n.LinksBelow bound) (hb : bound ≤ bound') : n.LinksBelow bound' :=
  fun m hm line name anchor hl => Nat.lt_of_lt_of_le (h m hm line name anchor hl) hb

theorem LinksBelow.part (h : n.LinksBelow bound) {m : Node} (hm : m ∈ below n) : m.LinksBelow bound :=
  fun k hk => h k (hk.head hm)

/-- A node that is written out has the aliases that its parts have. -/
theorem linksBelow_of_parts (proper : n.Proper) (h : ∀ m ∈ below n, m.LinksBelow bound) : n.LinksBelow bound := by
  rintro m hm line name anchor rfl
  rcases hm.cases_head with rfl | ⟨k, hk, hm⟩
  · exact absurd rfl (proper _ _ _)
  · exact h k hk _ hm _ _ _ rfl

theorem linksBelow_link {line anchor : Nat} {name : String} (h : anchor < bound) : (link line name anchor).LinksBelow bound := by
  intro m hm line' name' anchor' hl
  rcases hm.cases_head with rfl | ⟨k, hk, -⟩
  · cases hl
    exact h
  · cases hk

theorem linksBelow_scalar (line : Nat) (tag value : String) : (scalar line tag value).LinksBelow bound :=
  linksBelow_of_parts nofun nofun

theorem linksBelow_sequence {items : List Node} (line : Nat) (tag : String) (h : ∀ n ∈ items, n.LinksBelow bound) :
    (sequence line tag items).LinksBelow bound :=
  linksBelow_of_parts nofun h

theorem linksBelow_mapping {entries : List (Node × Node)} (line : Nat) (tag : String)
    (h : ∀ e ∈ entries, e.2.LinksBelow bound) : (mapping line tag entries).LinksBelow bound := by
  refine linksBelow_of_parts nofun fun m hm => ?_
  obtain ⟨e, he, rfl⟩ := List.mem_map.1 hm
  exact h e he

end Node

namespace Reader

/-- The node behind the anchor is complete. -/
def Closed (r : Reader) (anchor : Nat) : Prop := ∃ n, (anchor, n) ∈ r.anchors

/-- Names stand for anchors that were opened, and complete nodes are written out and refer to such only. -/
structure Sound (r : Reader) : Prop where
  opened : ∀ e ∈ r.names, e.2 < r.next
  complete : ∀ a ∈ r.anchors, a.2.Proper ∧ a.2.LinksBelow r.next

/-- The second reader has come further: what was complete still is, and so is what was opened meanwhile. -/
structure Further (r r' : Reader) : Prop where
  next : r.next ≤ r'.next
  closed : ∀ k, r.Closed k ∨ r.next ≤ k ∧ k < r'.next → r'.Closed k

variable {r r' r'' : Reader}

theorem Further.refl (r : Reader) : r.Further r :=
  ⟨Nat.le_refl _, fun _ h => h.elim id fun h => absurd h.1 (Nat.not_le.2 h.2)⟩

theorem Further.trans (h : r.Further r') (h' : r'.Further r'') : r.Further r'' where
  next := Nat.le_trans h.next h'.next
  closed k hk := by
    refine h'.closed k ?_
    rcases hk with hk | ⟨hl, hu⟩
    · exact .inl (h.closed k (.inl hk))
    · rcases Nat.lt_or_ge k r'.next with hk | hk
      · exact .inl (h.closed k (.inr ⟨hl, hk⟩))
      · exact .inr ⟨hk, hu⟩

/-- A step that opens no anchor keeps what is complete. -/
theorem Further.of_next_eq (hn : r'.next = r.next) (closed : ∀ k, r.Closed k → r'.Closed k) : r.Further r' := by
  refine ⟨by omega, fun k hk => hk.elim (closed k) fun hk => ?_⟩
  omega

theorem Sound.of_eq (h : r.Sound) (hm : r'.names = r.names) (hn : r'.next = r.next) (ha : r'.anchors = r.anchors) : r'.Sound :=
  ⟨by rw [hm, hn]; exact h.opened, by rw [ha, hn]; exact h.complete⟩

end Reader

/-! ### Steps of reading -/

/-- From any sound reader that has come further than the given one, the step leads to a sound reader that has come further,
    and its result has the property there. -/
def Reads {α : Type} (r₀ : Reader) (P : Reader → α → Prop) (x : Reading α) : Prop :=
  ∀ r a r', r.Sound → r₀.Further r → x.run r = .ok (a, r') → r'.Sound ∧ r.Further r' ∧ P r' a

section Reads
variable {α β : Type} {r₀ : Reader} {P : Reader → α → Prop} {Q : Reader → β → Prop}

theorem reads_pure {a : α} (h : ∀ r, r₀.Further r → P r a) : Reads r₀ P (pure a) := by
  rintro r _ _ hs hf ⟨⟩
  exact ⟨hs, .refl r, h r hf⟩

theorem reads_throw (e : SyntaxError) : Reads r₀ P (throw e) := nofun

theorem Reads.bind {x : Reading α} {f : α → Reading β} (hx : Reads r₀ P x)
    (hf : ∀ a r, r₀.Further r → P r a → Reads r Q (f a)) : Reads r₀ Q (x >>= f) := by
  intro r b r'' hs hr h
  obtain ⟨⟨a, r'⟩, ha, h⟩ : ∃ p, x.run r = .ok p ∧ (f p.1).run p.2 = .ok (b, r'') := by
    change (x.run r >>= fun p => (f p.1).run p.2) = .ok (b, r'') at h
    cases hp : x.run r with
    | error =>
      rw [hp] at h
      cases h
    | ok p =>
      rw [hp] at h
      exact ⟨p, rfl, h⟩
  obtain ⟨hs', further, hp⟩ := hx r a r' hs hr ha
  obtain ⟨hs'', further', hq⟩ := hf a r' (hr.trans further) hp r' b r'' hs' (.refl r') h
  exact ⟨hs'', further.trans further', hq⟩

/-- A step of whose result nothing has to be known. -/
theorem Reads.after {x : Reading α} {f : α → Reading β} (hx : Reads r₀ (fun _ _ => True) x)
    (hf : ∀ a r, r₀.Further r → Reads r Q (f a)) : Reads r₀ Q (x >>= f) :=
  hx.bind fun a r hr _ => hf a r hr

theorem Reads.imp {P' : Reader → α → Prop} {x : Reading α} (hx : Reads r₀ P x) (h : ∀ r a, r₀.Further r → P r a → P' r a) :
    Reads r₀ P' x := by
  intro r a r' hs hr ha
  obtain ⟨hs', further, hp⟩ := hx r a r' hs hr ha
  exact ⟨hs', further, h r' a (hr.trans further) hp⟩

theorem reads_get : Reads r₀ (fun r s => ∀ e ∈ s.names, e.2 < r.next) (get : Reading Reader) := by
  rintro r _ _ hs hf ⟨⟩
  exact ⟨hs, .refl r, hs.opened⟩

theorem reads_peek : Reads r₀ (fun _ _ => True) Reading.peek := by
  refine reads_get.bind fun s r _ _ => ?_
  split
  · exact reads_pure fun _ _ => trivial
  · exact reads_throw _

theorem reads_skip : Reads r₀ (fun _ _ => True) Reading.skip := by
  rintro r _ _ hs hf ⟨⟩
  exact ⟨hs.of_eq rfl rfl rfl, .of_next_eq rfl fun _ => id, trivial⟩

theorem reads_fullTag (handle suffix : String) : Reads r₀ (fun _ _ => True) (Reading.fullTag handle suffix) := by
  unfold Reading.fullTag
  split
  · exact reads_pure fun _ _ => trivial
  · refine reads_get.bind fun s r _ _ => ?_
    split
    · exact reads_pure fun _ _ => trivial
    · exact reads_throw _

theorem reads_properties : Reads r₀ (fun _ _ => True) Reading.properties := by
  refine reads_peek.after fun first r _ => ?_
  split
  · refine reads_skip.after fun _ r _ => reads_peek.after fun token r _ => ?_
    split
    · exact reads_skip.after fun _ r _ => (reads_fullTag _ _).after fun _ _ _ => reads_pure fun _ _ => trivial
    · exact reads_pure fun _ _ => trivial
  · refine reads_skip.after fun _ r _ => reads_peek.after fun token r _ => ?_
    extract_lets finish
    have finished : ∀ anchor r, Reads r (fun _ _ => True) (finish anchor) := fun anchor r =>
      (reads_fullTag _ _).after fun _ _ _ => reads_pure fun _ _ => trivial
    split
    · refine reads_skip.after fun _ r _ => ?_
      exact Reads.after (reads_pure fun _ _ => trivial) fun anchor r _ => finished anchor r
    · exact Reads.after (reads_pure fun _ _ => trivial) fun anchor r _ => finished anchor r
  · exact reads_pure fun _ _ => trivial

end Reads

/-! ### Anchors -/

section Anchors
variable {r₀ : Reader}

/-- The result is a node with aliases of anchors that were opened. -/
abbrev ReadsNode (r₀ : Reader) (x : Reading Node) : Prop := Reads r₀ (fun r n => n.LinksBelow r.next) x

/-- The anchor that was opened before a node is complete after it. -/
abbrev Completes (r₀ : Reader) (anchor : Option Nat) (x : Reading Node) : Prop :=
  Reads r₀ (fun r n => n.LinksBelow r.next ∧ ∀ a, anchor = some a → r.Closed a) x

/-- An anchor is open while its node is read. -/
theorem reads_anchored {f : Option Nat → Reading Node} (name : Option String)
    (h : ∀ anchor r, r₀.next ≤ r.next → Completes r anchor (f anchor)) : ReadsNode r₀ (Reading.openAnchor name >>= f) := by
  intro r n r' hs hf hr
  cases name with
  | none =>
    obtain ⟨hs', further, hn, -⟩ := h none r hf.next r n r' hs (.refl r) hr
    exact ⟨hs', further, hn⟩
  | some name =>
    let opened : Reader := { r with names := (name, r.next) :: r.names, next := r.next + 1 }
    have sound : opened.Sound := by
      refine ⟨List.forall_mem_cons.2 ⟨Nat.lt_succ_self _, fun e he => Nat.lt_succ_of_lt (hs.opened e he)⟩, fun a ha => ?_⟩
      obtain ⟨proper, links⟩ := hs.complete a ha
      exact ⟨proper, links.mono (Nat.le_succ _)⟩
    obtain ⟨hs', further, hn, closed⟩ :=
      h (some r.next) opened (Nat.le_succ_of_le hf.next) opened n r' sound (.refl _) hr
    refine ⟨hs', ⟨Nat.le_trans (Nat.le_succ _) further.next, fun k hk => ?_⟩, hn⟩
    rcases hk with hk | ⟨hl, hu⟩
    · exact further.closed k (.inl hk)
    · rcases Nat.eq_or_lt_of_le hl with rfl | hl
      · exact closed _ rfl
      · exact further.closed k (.inr ⟨hl, hu⟩)

theorem completes_closeAnchor (anchor : Option Nat) {n : Node} (proper : n.Proper) (h : n.LinksBelow r₀.next) :
    Completes r₀ anchor (Reading.closeAnchor anchor n) := by
  intro r m r' hs hf hr
  have links : n.LinksBelow r.next := h.mono hf.next
  cases anchor with
  | none =>
    cases hr
    exact ⟨hs, .refl r, links, nofun⟩
  | some a =>
    cases hr
    refine ⟨⟨hs.opened, List.forall_mem_cons.2 ⟨⟨proper, links⟩, hs.complete⟩⟩, ?_, links, ?_⟩
    · exact .of_next_eq rfl fun k ⟨n, hn⟩ => ⟨n, List.mem_cons_of_mem _ hn⟩
    · rintro _ ⟨⟩
      exact ⟨n, List.mem_cons_self⟩

/-- Reading a node out of parts that were read. -/
theorem completes_of_parts {α : Type} {P : Reader → α → Prop} {x : Reading α} {make : α → Node} (anchor : Option Nat)
    (hx : ∀ r, Reads r P x) (proper : ∀ a, (make a).Proper) (h : ∀ r a, P r a → (make a).LinksBelow r.next) :
    Completes r₀ anchor (do Reading.closeAnchor anchor (make (← x))) :=
  (hx r₀).bind fun a r _ ha => completes_closeAnchor anchor (proper a) (h r a ha)

end Anchors

/-! ### Nodes -/

/-- Reading nodes with aliases of anchors that were opened. -/
abbrev ReadsNodes (r₀ : Reader) (x : Reading (List Node)) : Prop :=
  Reads r₀ (fun r ns => ∀ n ∈ ns, n.LinksBelow r.next) x

/-- Reading entries whose values have aliases of anchors that were opened. -/
abbrev ReadsEntries (r₀ : Reader) (x : Reading (List (Node × Node))) : Prop :=
  Reads r₀ (fun r es => ∀ e ∈ es, e.2.LinksBelow r.next) x

/-- What the functions that read nodes give within an allowance of nested calls. -/
structure ReadsAll (fuel : Nat) : Prop where
  node : ∀ block indentless r, ReadsNode r (Reading.node fuel block indentless)
  blockItems : ∀ r, ReadsNodes r (Reading.blockItems fuel)
  indentlessItems : ∀ r, ReadsNodes r (Reading.indentlessItems fuel)
  blockEntries : ∀ r, ReadsEntries r (Reading.blockEntries fuel)
  blockValue : ∀ r, ReadsNode r (Reading.blockValue fuel)
  flowItems : ∀ first r, ReadsNodes r (Reading.flowItems fuel first)
  flowPair : ∀ r, Reads r (fun r e => e.2.LinksBelow r.next) (Reading.flowPair fuel)
  flowEntries : ∀ first r, ReadsEntries r (Reading.flowEntries fuel first)
  flowValue : ∀ r, ReadsNode r (Reading.flowValue fuel)

theorem reads_empty (r : Reader) (line : Nat) : ReadsNode r (pure (Reading.empty line)) :=
  reads_pure fun _ _ => Node.linksBelow_scalar _ _ _

/-- One more after what was read. -/
theorem reads_cons {α : Type} (f : α → Node) {a : α} {x : Reading (List α)} {r : Reader} (ha : (f a).LinksBelow r.next)
    (hx : ∀ r, Reads r (fun r xs => ∀ b ∈ xs, (f b).LinksBelow r.next) x) :
    Reads r (fun r xs => ∀ b ∈ xs, (f b).LinksBelow r.next) (do return a :: (← x)) :=
  (hx r).bind fun _ _ hr hxs => reads_pure fun _ hr' =>
    List.forall_mem_cons.2 ⟨ha.mono (hr.trans hr').next, fun b hb => (hxs b hb).mono hr'.next⟩

/-- What was read gives one node more. -/
theorem ReadsNode.cons {x : Reading Node} {y : Reading (List Node)} {r : Reader} (hx : ReadsNode r x)
    (hy : ∀ r, ReadsNodes r y) : ReadsNodes r (do return (← x) :: (← y)) :=
  hx.bind fun _ _ _ hn => reads_cons id hn hy

section Steps
variable {fuel : Nat} (ih : ReadsAll fuel) (r : Reader)
include ih

theorem reads_blockItems : ReadsNodes r (Reading.blockItems (fuel + 1)) := by
  unfold Reading.blockItems
  refine reads_peek.after fun token r _ => ?_
  split
  · refine reads_skip.after fun _ r _ => reads_peek.after fun token r _ => ?_
    split
    · exact (reads_empty r _).cons ih.blockItems
    · exact (reads_empty r _).cons ih.blockItems
    · exact (ih.node _ _ r).cons ih.blockItems
  · exact reads_skip.after fun _ r _ => reads_pure fun _ _ => nofun
  · exact reads_throw _

theorem reads_indentlessItems : ReadsNodes r (Reading.indentlessItems (fuel + 1)) := by
  unfold Reading.indentlessItems
  refine reads_peek.after fun token r _ => ?_
  split
  · refine reads_skip.after fun _ r _ => reads_peek.after fun token r _ => ?_
    dsimp only
    split
    case h_5 => exact (ih.node _ _ r).cons ih.indentlessItems
    all_goals exact (reads_empty r _).cons ih.indentlessItems
  · exact reads_pure fun _ _ => nofun

theorem reads_blockEntries : ReadsEntries r (Reading.blockEntries (fuel + 1)) := by
  unfold Reading.blockEntries
  refine reads_peek.after fun token r _ => ?_
  split
  · refine reads_skip.after fun _ r _ => reads_peek.after fun token r _ => ?_
    extract_lets entry
    have entered : ∀ key r, ReadsEntries r (entry key) := fun key r =>
      (ih.blockValue r).bind fun value r _ hv => reads_cons Prod.snd hv ih.blockEntries
    split
    case h_4 => exact (ih.node _ _ r).bind fun key r _ _ => entered key r
    all_goals exact (reads_empty r _).bind fun key r _ _ => entered key r
  · exact reads_skip.after fun _ r _ => reads_pure fun _ _ => nofun
  · exact reads_throw _

theorem reads_blockValue : ReadsNode r (Reading.blockValue (fuel + 1)) := by
  unfold Reading.blockValue
  refine reads_peek.after fun token r _ => ?_
  split
  · refine reads_skip.after fun _ r _ => reads_peek.after fun token r _ => ?_
    split
    case h_4 => exact ih.node _ _ r
    all_goals exact reads_empty r _
  · exact reads_empty r _

theorem reads_flowItems (first : Bool) : ReadsNodes r (Reading.flowItems (fuel + 1) first) := by
  unfold Reading.flowItems
  extract_lets item
  have items : ∀ r, ReadsNodes r (item ()) := by
    intro r
    refine reads_peek.after fun token r _ => ?_
    split
    · exact reads_skip.after fun _ r _ => reads_pure fun _ _ => nofun
    · refine reads_skip.after fun _ r _ => (ih.flowPair r).bind fun pair r _ hp => reads_cons id ?_ (ih.flowItems false)
      exact Node.linksBelow_mapping _ _ (List.forall_mem_singleton.2 hp)
    · exact (ih.node _ _ r).cons (ih.flowItems false)
  split
  · refine reads_peek.after fun token r _ => ?_
    split
    · exact reads_skip.after fun _ r _ => items r
    · exact items r
    · exact Reads.after (reads_throw _) fun _ r _ => items r
  · exact items r

theorem reads_flowPair : Reads r (fun r e => e.2.LinksBelow r.next) (Reading.flowPair (fuel + 1)) := by
  unfold Reading.flowPair
  refine reads_peek.after fun token r _ => ?_
  extract_lets pair
  have paired : ∀ key r, Reads r (fun r e => e.2.LinksBelow r.next) (pair key) := by
    intro key r
    refine reads_peek.after fun token r _ => ?_
    have valued : ∀ {x r}, ReadsNode r x → Reads r (fun r e => e.2.LinksBelow r.next) (do return (key, ← x)) := fun hx =>
      hx.bind fun _ _ _ hv => reads_pure fun _ hr => hv.mono hr.next
    split
    · refine reads_skip.after fun _ r _ => reads_peek.after fun token r _ => ?_
      split
      case h_3 => exact valued (ih.node _ _ r)
      all_goals exact valued (reads_empty r _)
    · exact valued (reads_empty r _)
  split
  case h_4 => exact (ih.node _ _ r).bind fun key r _ _ => paired key r
  all_goals exact reads_skip.after fun _ r _ => (reads_empty r _).bind fun key r _ _ => paired key r

theorem reads_flowEntries (first : Bool) : ReadsEntries r (Reading.flowEntries (fuel + 1) first) := by
  unfold Reading.flowEntries
  extract_lets keyed entry
  have entered : ∀ key r, ReadsEntries r (keyed key) := fun key r =>
    (ih.flowValue r).bind fun value r _ hv => reads_cons Prod.snd hv (ih.flowEntries false)
  have entries : ∀ r, ReadsEntries r (entry ()) := by
    intro r
    refine reads_peek.after fun token r _ => ?_
    split
    · exact reads_skip.after fun _ r _ => reads_pure fun _ _ => nofun
    · refine reads_skip.after fun _ r _ => reads_peek.after fun token r _ => ?_
      split
      case h_4 => exact (ih.node _ _ r).bind fun key r _ _ => entered key r
      all_goals exact (reads_empty r _).bind fun key r _ _ => entered key r
    · refine (ih.node _ _ r).bind fun key r _ _ => reads_peek.after fun token r _ => ?_
      exact reads_cons Prod.snd (Node.linksBelow_scalar _ _ _) (ih.flowEntries false)
  split
  · refine reads_peek.after fun token r _ => ?_
    split
    · exact reads_skip.after fun _ r _ => entries r
    · exact entries r
    · exact Reads.after (reads_throw _) fun _ r _ => entries r
  · exact entries r

theorem reads_flowValue : ReadsNode r (Reading.flowValue (fuel + 1)) := by
  unfold Reading.flowValue
  refine reads_peek.after fun token r _ => ?_
  split
  · refine reads_skip.after fun _ r _ => reads_peek.after fun token r _ => ?_
    split
    case h_3 => exact ih.node _ _ r
    all_goals exact reads_empty r _
  · exact reads_empty r _

theorem reads_node (block indentless : Bool) : ReadsNode r (Reading.node (fuel + 1) block indentless) := by
  unfold Reading.node
  refine reads_peek.after fun token r _ => ?_
  extract_lets written
  have whole : ∀ r, ReadsNode r (written ()) := by
    intro r
    refine reads_properties.after fun props r _ => reads_peek.after fun token r _ => ?_
    refine reads_anchored _ fun anchor r _ => ?_
    extract_lets seqTag mapTag
    have sequence : ∀ {x}, (∀ r, ReadsNodes r x) → ∀ r, Completes r anchor (do
        Reading.closeAnchor anchor (.sequence props.line seqTag (← x))) := fun hx r =>
      completes_of_parts anchor hx (fun _ => nofun) fun _ _ h => Node.linksBelow_sequence _ _ h
    have mapping : ∀ {x}, (∀ r, ReadsEntries r x) → ∀ r, Completes r anchor (do
        Reading.closeAnchor anchor (.mapping props.line mapTag (← x))) := fun hx r =>
      completes_of_parts anchor hx (fun _ => nofun) fun _ _ h => Node.linksBelow_mapping _ _ h
    have scalar : ∀ tag text r, Completes r anchor (Reading.closeAnchor anchor (.scalar props.line tag text)) := fun tag text r =>
      completes_closeAnchor anchor nofun (Node.linksBelow_scalar _ _ _)
    split
    · exact reads_skip.after fun _ r _ => scalar _ _ r
    · exact reads_skip.after fun _ r _ => sequence (ih.flowItems true) r
    · exact reads_skip.after fun _ r _ => mapping (ih.flowEntries true) r
    · split
      · exact sequence ih.indentlessItems r
      split
      · exact reads_skip.after fun _ r _ => sequence ih.blockItems r
      split
      · exact reads_skip.after fun _ r _ => mapping ih.blockEntries r
      split
      · exact scalar _ _ r
      · exact reads_throw _
  split
  · refine reads_skip.after fun _ r _ => reads_get.bind fun s r _ opened => ?_
    split
    · rename_i a ha
      obtain ⟨before, after, he, -⟩ := List.lookup_eq_some_iff.1 ha
      have : a < r.next := opened (_, a) (he ▸ List.mem_append_right _ List.mem_cons_self)
      exact reads_pure fun _ hr => Node.linksBelow_link (Nat.lt_of_lt_of_le this hr.next)
    · exact Reads.after (reads_throw _) fun _ r _ => whole r
  · exact whole r

end Steps

theorem reads_all (fuel : Nat) : ReadsAll fuel := by
  induction fuel with
  | zero =>
    constructor <;> intros <;> exact reads_throw _
  | succ fuel ih =>
    exact {
      node := fun block indentless r => reads_node ih r block indentless
      blockItems := reads_blockItems ih
      indentlessItems := reads_indentlessItems ih
      blockEntries := reads_blockEntries ih
      blockValue := reads_blockValue ih
      flowItems := fun first r => reads_flowItems ih r first
      flowPair := reads_flowPair ih
      flowEntries := fun first r => reads_flowEntries ih r first
      flowValue := reads_flowValue ih }

/-- What comes after a check of which only the failure is told. -/
theorem reads_unless {α : Type} {c : Prop} [Decidable c] {P : Reader → α → Prop} {e : SyntaxError} {rest : Unit → Reading α}
    (h : ∀ r, Reads r P (rest ())) (r : Reader) : Reads r P (if c then throw e >>= rest else rest ()) := by
  split
  · exact Reads.after (reads_throw e) fun _ r _ => h r
  · exact h r

theorem reads_directives (fuel : Nat) (versioned : Bool) (handles : List String) (r : Reader) :
    Reads r (fun _ _ => True) (Reading.directives fuel versioned handles) := by
  induction fuel generalizing versioned handles r with
  | zero => exact reads_pure fun _ _ => trivial
  | succ fuel ih =>
    unfold Reading.directives
    refine reads_peek.after fun token r _ => ?_
    split
    · exact reads_unless (fun r => reads_skip.after fun _ r _ => ih _ _ r) r
    · refine reads_unless (fun r => reads_skip.after fun _ r _ => Reads.after ?_ fun _ r _ => ih _ _ r) r
      rintro r _ _ hs hf ⟨⟩
      exact ⟨hs.of_eq rfl rfl rfl, .of_next_eq rfl fun _ => id, trivial⟩
    · exact reads_pure fun _ _ => trivial

/-- The root of a document has aliases of anchors that were opened. -/
theorem reads_document (fuel : Nat) (r : Reader) :
    Reads r (fun r root => ∀ n, root = some n → n.LinksBelow r.next) (Reading.document fuel) := by
  have rooted : ∀ {x r}, ReadsNode r x → Reads r (fun r root => ∀ n, root = some n → n.LinksBelow r.next)
      (do let root ← x; let _ ← Reading.peek; return some root) := fun hx =>
    hx.bind fun root r _ hn => reads_peek.after fun _ _ hr => reads_pure fun _ hr' => by
      rintro _ ⟨⟩
      exact hn.mono (hr.trans hr').next
  unfold Reading.document
  refine reads_skip.after fun _ r _ => reads_peek.after fun token r _ => ?_
  split
  case h_1 => exact reads_pure fun _ _ => nofun
  case h_5 => exact rooted ((reads_all fuel).node _ _ r)
  all_goals
    refine (reads_directives _ _ _ r).after fun _ r _ => reads_peek.after fun start r _ => reads_unless (fun r => ?_) r
    refine reads_skip.after fun _ r _ => reads_peek.after fun token r _ => ?_
    dsimp only
    split
    case h_6 => exact rooted ((reads_all fuel).node _ _ r)
    all_goals exact rooted (reads_empty r _)

/-- In a document that was read, every alias leads to a node that is written out. -/
theorem linked_of_parse {text : String} {g : Graph} {n : Node} (h : parse text = .ok g) (hn : g.root = some n) :
    Document.Linked g n := by
  let start : Reader := { tokens := tokens text }
  obtain ⟨⟨root, r⟩, hr, he⟩ :
      ∃ p, (Reading.document (4 * (tokens text).length + 16)).run start = .ok p ∧ (⟨p.1, p.2.anchors⟩ : Graph) = g := by
    change ((Reading.document (4 * (tokens text).length + 16)).run start >>= fun p =>
      (pure ⟨p.1, p.2.anchors⟩ : Except SyntaxError Graph)) = .ok g at h
    cases hp : (Reading.document (4 * (tokens text).length + 16)).run start with
    | error =>
      rw [hp] at h
      cases h
    | ok p =>
      rw [hp] at h
      exact ⟨p, rfl, Except.ok.inj h⟩
  cases he
  obtain ⟨sound, further, links⟩ := reads_document _ start start root r ⟨nofun, nofun⟩ (.refl _) hr
  have closed : ∀ k < r.next, r.Closed k := fun k hk => further.closed k (.inr ⟨Nat.zero_le k, hk⟩)
  have held : Held ⟨root, r.anchors⟩ fun n => n.LinksBelow r.next := by
    refine ⟨fun hk hm => hk.part hm, fun {k m} hk hm => ?_⟩
    cases k with
    | link line name a => exact (sound.complete _ (Document.mem_anchors hm)).2
    | _ => exact Option.some.inj hm ▸ hk
  have leading : ∀ m, m.LinksBelow r.next → Leading ⟨root, r.anchors⟩ m := by
    intro m hm
    cases m with
    | link line name a =>
      obtain ⟨k, hk⟩ := closed a (hm _ .refl _ _ _ rfl)
      obtain ⟨m, hm⟩ := Option.isSome_iff_exists.1 (List.lookup_isSome_iff.2 ⟨_, hk, beq_self_eq_true a⟩)
      exact ⟨m, hm, (sound.complete _ (Document.mem_anchors (g := ⟨root, r.anchors⟩) hm)).1⟩
    | _ => exact ⟨_, rfl, nofun⟩
  intro m hm
  refine leading m ?_
  induction hm with
  | refl => exact links n hn
  | tail _ hl ih => exact hl.elim (held.below ih) (held.resolved ih)

end TypeCalculus.Yaml
