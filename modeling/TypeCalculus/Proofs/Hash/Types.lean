import TypeCalculus.Proofs.Hash.Framing
import TypeCalculus.Proofs.Ty.Identity
import TypeCalculus.Proofs.Ty.Walk
import TypeCalculus.Ty.Hashed
import TypeCalculus.Ty.Walk

/-! Types with equal hashes are identical, as long as no two byte streams that are hashed for them collide. So
    what a hash leaves out of a type is exactly what identity leaves out: the annotations of parameters. -/

namespace TypeCalculus.Ty

/-! ### What is hashed -/

/-- The byte stream that the hash of a type sums up; the types without parts have a hash of their own. -/
def stream? : Ty → Option Bytes
  | absent | any | unknown | void | never => none
  | prim p => some ((opening .primitive).nat p.code)
  | literal base text => some (((opening .literal).nat base.code).text text)
  | template segments => some (streamSegments ((opening .template).nat segments.length) segments)
  | object props index => some (streamIndex (streamProps ((opening .object).nat props.length) props) index)
  | array elem readonly => some (((opening .array).word elem.hash).bool readonly)
  | tuple elems => some (streamAll ((opening .tuple).nat elems.length) elems)
  | union members => some (streamAll ((opening .union).nat members.length) members)
  | intersection members => some (streamAll ((opening .intersection).nat members.length) members)
  | param name _ _ => some ((opening .param).text name)
  | infer name constraint => some (((opening .infer).text name).word constraint.hash)
  | conditional check bound yes no distribute =>
    some (((((opening .conditional).word check.hash).word bound.hash).word yes.hash).word no.hash |>.bool distribute)
  | reference name args => some (streamAll (((opening .reference).text name).nat args.length) args)
  | function params result =>
    some ((streamAll ((opening .function).nat params.length) params).word result.hash)
  | keyOf target => some ((opening .keyOf).word target.hash)
  | access target index => some (((opening .access).word target.hash).word index.hash)
  | mapping op arg => some (((opening .mapping).nat op.code).word arg.hash)

/-- The hashes that are not sums of streams. -/
def reserved : List UInt64 :=
  [0, sentinelHash .any, sentinelHash .unknown, sentinelHash .void, sentinelHash .never]

theorem hash_of_stream {t : Ty} {s : Bytes} (h : t.stream? = some s) : t.hash = s.hash := by
  cases t with
  | absent | any | unknown | void | never => cases h
  | _ =>
    obtain rfl := Option.some.inj h
    rw [hash]

theorem hash_mem_reserved {t : Ty} (h : t.stream? = none) : t.hash ∈ reserved := by
  cases t with
  | absent | any | unknown | void | never => simp [hash, reserved]
  | _ => cases h

inductive Node : Ty → Ty → Prop
  | self {t} : Node t t
  | part {t u v} : u ∈ t.parts → Node u v → Node t v

theorem Node.eq_of_leaf {t u : Ty} (hp : t.parts = []) (h : Node t u) : u = t := by
  cases h with
  | self => rfl
  | part hm =>
    rw [hp] at hm
    cases hm

def Hashes (t : Ty) (s : Bytes) : Prop := ∃ u, Node t u ∧ u.stream? = some s

def SegmentsSized (segments : List (Segment Ty)) : Prop :=
  ∀ text, .text text ∈ segments → text.utf8ByteSize < UInt64.size

theorem SegmentsSized.tail {s : Segment Ty} {segments : List (Segment Ty)} (h : SegmentsSized (s :: segments)) :
    SegmentsSized segments :=
  fun text ht => h text (List.mem_cons_of_mem _ ht)

/-- The texts and lists of a node have lengths that fit into a word. -/
def NodeSized : Ty → Prop
  | literal _ text => text.utf8ByteSize < UInt64.size
  | template segments => segments.length < UInt64.size ∧ SegmentsSized segments
  | object props _ => props.length < UInt64.size ∧ ∀ p ∈ props, p.key.utf8ByteSize < UInt64.size
  | tuple ts | union ts | intersection ts | function ts _ => ts.length < UInt64.size
  | param name _ _ | infer name _ => name.utf8ByteSize < UInt64.size
  | reference name args => name.utf8ByteSize < UInt64.size ∧ args.length < UInt64.size
  | _ => True

def NodeFilled : Ty → Prop
  | template segments => ∀ t ∈ holes segments, t.isAbsent = false
  | _ => True

/-- Every node of the tree has lengths that fit into a word. -/
def Sized (t : Ty) : Prop := ∀ u, Node t u → u.NodeSized

def Filled (t : Ty) : Prop := ∀ u, Node t u → u.NodeFilled

end Ty

/-- No two of the streams have the same hash, and none has that of a type without parts. -/
structure Collisionless (H : Bytes → Prop) : Prop where
  apart : ∀ x y, H x → H y → x.hash = y.hash → x = y
  free : ∀ x, H x → x.hash ∉ Ty.reserved

namespace Ty

/-- What is hashed for the type is among the streams, its lengths fit, and its holes have types. -/
structure Covered (H : Bytes → Prop) (t : Ty) : Prop where
  hashes : ∀ s, Hashes t s → H s
  sized : Sized t
  filled : Filled t

theorem Covered.part {H : Bytes → Prop} {t u : Ty} (h : Covered H t) (hu : u ∈ t.parts) : Covered H u where
  hashes s := fun ⟨v, hv, hs⟩ => h.hashes s ⟨v, .part hu hv, hs⟩
  sized v hv := h.sized v (.part hu hv)
  filled v hv := h.filled v (.part hu hv)

theorem Covered.own {H : Bytes → Prop} {t : Ty} (h : Covered H t) : t.NodeSized := h.sized t .self

theorem covered_absent (H : Bytes → Prop) : Covered H absent := by
  have only : ∀ u, Node absent u → u = absent := fun u hu => hu.eq_of_leaf rfl
  refine ⟨fun s ⟨u, hu, hs⟩ => ?_, fun u hu => ?_, fun u hu => ?_⟩
  · rw [only u hu] at hs
    cases hs
  · rw [only u hu]
    trivial
  · rw [only u hu]
    trivial

theorem Covered.constraint {H : Bytes → Prop} {name : String} {c : Ty} (h : Covered H (infer name c)) : Covered H c := by
  cases c with
  | absent => exact covered_absent H
  | _ => exact h.part List.mem_cons_self

/-! ### Streams as bytes -/

def allBytes (ts : List Ty) : List UInt8 := ts.flatMap fun t => wordBytes t.hash

def segmentBytes (segments : List (Segment Ty)) : List UInt8 :=
  segments.flatMap fun
    | .text text => textBytes text ++ wordBytes 0
    | .hole t => textBytes "" ++ wordBytes t.hash

def propBytes (props : List (Property Ty)) : List UInt8 :=
  props.flatMap fun p => textBytes p.key ++ (wordBytes p.type.hash ++
    (wordBytes (if p.optional then 1 else 0) ++ wordBytes (if p.readonly then 1 else 0)))

def indexBytes : Option (IndexSignature Ty) → List UInt8
  | none => wordBytes (UInt64.ofInt (-1))
  | some i => wordBytes i.key.code.toUInt64 ++ wordBytes i.value.hash

theorem toList_streamAll (s : Bytes) (ts : List Ty) : (streamAll s ts).toList = s.toList ++ allBytes ts := by
  induction ts generalizing s with
  | nil => simp [streamAll, allBytes]
  | cons t ts ih => simp [streamAll, ih, allBytes]

theorem toList_streamSegments (s : Bytes) (segments : List (Segment Ty)) :
    (streamSegments s segments).toList = s.toList ++ segmentBytes segments := by
  induction segments generalizing s with
  | nil => simp [streamSegments, segmentBytes]
  | cons segment rest ih =>
    cases segment with
    | text text => simp [streamSegments, ih, segmentBytes]
    | hole t => simp [streamSegments, ih, segmentBytes]

theorem toList_streamProps (s : Bytes) (props : List (Property Ty)) :
    (streamProps s props).toList = s.toList ++ propBytes props := by
  induction props generalizing s with
  | nil => simp [streamProps, propBytes]
  | cons p props ih => simp [streamProps, ih, propBytes]

theorem toList_streamIndex (s : Bytes) (index : Option (IndexSignature Ty)) :
    (streamIndex s index).toList = s.toList ++ indexBytes index := by
  cases index <;> simp [streamIndex, indexBytes]

/-- The stream of a type after the code of its variant. -/
def body : Ty → List UInt8
  | prim p => wordBytes p.code.toUInt64
  | literal base text => wordBytes base.code.toUInt64 ++ textBytes text
  | template segments => wordBytes segments.length.toUInt64 ++ segmentBytes segments
  | object props index => wordBytes props.length.toUInt64 ++ (propBytes props ++ indexBytes index)
  | array elem readonly => wordBytes elem.hash ++ wordBytes (if readonly then 1 else 0)
  | tuple ts | union ts | intersection ts => wordBytes ts.length.toUInt64 ++ allBytes ts
  | param name _ _ => textBytes name
  | infer name constraint => textBytes name ++ wordBytes constraint.hash
  | conditional check bound yes no distribute =>
    wordBytes check.hash ++ (wordBytes bound.hash ++ (wordBytes yes.hash ++ (wordBytes no.hash ++
      wordBytes (if distribute then 1 else 0))))
  | reference name args => textBytes name ++ (wordBytes args.length.toUInt64 ++ allBytes args)
  | function params result => wordBytes params.length.toUInt64 ++ (allBytes params ++ wordBytes result.hash)
  | keyOf target => wordBytes target.hash
  | access target index => wordBytes target.hash ++ wordBytes index.hash
  | mapping op arg => wordBytes op.code.toUInt64 ++ wordBytes arg.hash
  | _ => []

theorem toList_stream {t : Ty} {s : Bytes} (h : t.stream? = some s) :
    ∃ k, t.kind? = some k ∧ s.toList = wordBytes k.code.toUInt64 ++ t.body := by
  cases t with
  | absent | any | unknown | void | never => cases h
  | _ =>
    obtain rfl := Option.some.inj h
    exact ⟨_, rfl, by simp [opening, body, toList_streamAll, toList_streamSegments, toList_streamProps, toList_streamIndex]⟩

theorem code_inj {k l : Kind} (h : k.code = l.code) : k = l := by
  cases k <;> cases l <;> first | rfl | (revert h; decide)

theorem code_lt (k : Kind) : k.code < UInt64.size := by
  cases k <;> decide

theorem primCode_inj {p q : Prim} (h : p.code.toUInt64 = q.code.toUInt64) : p = q := by
  cases p <;> cases q <;> first | rfl | exact absurd h (by decide)

theorem mappingCode_inj {f g : Mapping} (h : f.code.toUInt64 = g.code.toUInt64) : f = g := by
  cases f <;> cases g <;> first | rfl | exact absurd h (by decide)

section Collisionless
variable {H : Bytes → Prop} (C : Collisionless H)
include C

/-- Types with equal hashes have the same variant and the same bytes after its code. -/
theorem frame_of_hash {t u : Ty} (ht : Covered H t) (hu : Covered H u) (h : t.hash = u.hash)
    (hs : t.stream? ≠ none) : t.kind? = u.kind? ∧ t.body = u.body := by
  obtain ⟨x, hx⟩ := Option.ne_none_iff_exists'.1 hs
  have Hx := ht.hashes x ⟨t, .self, hx⟩
  cases hy : u.stream? with
  | none =>
    have := hash_mem_reserved hy
    rw [← h, hash_of_stream hx] at this
    exact absurd this (C.free x Hx)
  | some y =>
    have Hy := hu.hashes y ⟨u, .self, hy⟩
    have same : x = y := by
      refine C.apart x y Hx Hy ?_
      rw [← hash_of_stream hx, ← hash_of_stream hy, h]
    obtain ⟨k, hk, hxs⟩ := toList_stream hx
    obtain ⟨l, hl, hys⟩ := toList_stream hy
    rw [same, hys] at hxs
    obtain ⟨hc, hb⟩ := nat_cancel (code_lt l) (code_lt k) hxs
    rw [hk, hl, code_inj hc]
    exact ⟨rfl, hb.symm⟩

omit C in
theorem identical_of_reserved {t u : Ty} (ht : t.stream? = none) (hu : u.stream? = none) (h : t.hash = u.hash) :
    t.identical u = true := by
  cases t with
  | absent | any | unknown | void | never =>
    cases u with
    | absent | any | unknown | void | never => first | rfl | exact absurd h (by decide)
    | _ => cases hu
  | _ => cases ht

theorem stream_eq_none_of_hash {t u : Ty} (hu : Covered H u) (ht : t.stream? = none) (h : t.hash = u.hash) :
    u.stream? = none := by
  cases hy : u.stream? with
  | none => rfl
  | some y =>
    refine absurd ?_ (C.free y (hu.hashes y ⟨u, .self, hy⟩))
    rw [← hash_of_stream hy, ← h]
    exact hash_mem_reserved ht

/-- Only a missing type hashes to zero. -/
theorem hash_ne_zero {t : Ty} (ht : Covered H t) (ha : t.isAbsent = false) : t.hash ≠ 0 := by
  intro h
  have hs := stream_eq_none_of_hash C (t := absent) ht rfl (by rw [h, hash])
  have := identical_of_reserved (t := absent) rfl hs (by rw [h, hash])
  cases t with
  | absent => cases ha
  | _ => cases this

/-! ### Equal hashes -/

omit C in
theorem identicalAll_of_bytes {xs ys : List Ty} (same : ∀ x ∈ xs, ∀ y ∈ ys, x.hash = y.hash → x.identical y = true)
    (hl : xs.length = ys.length) {r r' : List UInt8} (h : allBytes xs ++ r = allBytes ys ++ r') :
    identicalAll xs ys = true ∧ r = r' := by
  induction xs generalizing ys with
  | nil =>
    cases ys with
    | nil => exact ⟨rfl, h⟩
    | cons => cases hl
  | cons x xs ih =>
    cases ys with
    | nil => cases hl
    | cons y ys =>
      simp only [allBytes, List.flatMap_cons, List.append_assoc] at h
      obtain ⟨hw, h⟩ := word_cancel h
      have head := same x List.mem_cons_self y List.mem_cons_self hw
      obtain ⟨tail, hr⟩ := ih (fun z hz w hw => same z (List.mem_cons_of_mem _ hz) w (List.mem_cons_of_mem _ hw))
        (Nat.succ.inj hl) h
      exact ⟨by simp [identicalAll, head, tail], hr⟩

omit C in
/-- A text is followed by zero, a hole by a hash. -/
theorem identicalSegments_of_bytes {xs ys : List (Segment Ty)}
    (same : ∀ t ∈ holes xs, ∀ u ∈ holes ys, t.hash = u.hash → t.identical u = true) (fx : ∀ t ∈ holes xs, t.hash ≠ 0)
    (fy : ∀ t ∈ holes ys, t.hash ≠ 0) (sx : SegmentsSized xs) (sy : SegmentsSized ys) (hl : xs.length = ys.length)
    {r r' : List UInt8} (h : segmentBytes xs ++ r = segmentBytes ys ++ r') : identicalSegments xs ys = true ∧ r = r' := by
  induction xs generalizing ys with
  | nil =>
    cases ys with
    | nil => exact ⟨rfl, h⟩
    | cons => cases hl
  | cons s xs ih =>
    cases ys with
    | nil => cases hl
    | cons s' ys =>
      cases s with
      | text text =>
        cases s' with
        | text text' =>
          simp only [segmentBytes, List.flatMap_cons, List.append_assoc] at h
          obtain ⟨rfl, hr⟩ := text_cancel (sx _ List.mem_cons_self) (sy _ List.mem_cons_self) h
          obtain ⟨-, hr⟩ := word_cancel hr
          obtain ⟨tail, hr⟩ := @ih ys same fx fy sx.tail sy.tail (Nat.succ.inj hl) hr
          exact ⟨by simp [identicalSegments, tail], hr⟩
        | hole u =>
          simp only [segmentBytes, List.flatMap_cons, List.append_assoc] at h
          obtain ⟨-, h⟩ := text_cancel (sx _ List.mem_cons_self) (by decide) h
          obtain ⟨hw, -⟩ := word_cancel h
          exact absurd hw.symm (fy u List.mem_cons_self)
      | hole t =>
        cases s' with
        | text text' =>
          simp only [segmentBytes, List.flatMap_cons, List.append_assoc] at h
          obtain ⟨-, h⟩ := text_cancel (by decide) (sy _ List.mem_cons_self) h
          obtain ⟨hw, -⟩ := word_cancel h
          exact absurd hw (fx t List.mem_cons_self)
        | hole u =>
          simp only [segmentBytes, List.flatMap_cons, List.append_assoc] at h
          obtain ⟨-, h⟩ := text_cancel (by decide) (by decide) h
          obtain ⟨hw, h⟩ := word_cancel h
          have head := same t List.mem_cons_self u List.mem_cons_self hw
          obtain ⟨tail, hr⟩ := ih (fun z hz w hw => same z (List.mem_cons_of_mem _ hz) w (List.mem_cons_of_mem _ hw))
            (fun z hz => fx z (List.mem_cons_of_mem _ hz)) (fun z hz => fy z (List.mem_cons_of_mem _ hz)) sx.tail sy.tail
            (Nat.succ.inj hl) h
          exact ⟨by simp [identicalSegments, head, tail], hr⟩

omit C in
theorem identicalProps_of_bytes {ps qs : List (Property Ty)}
    (same : ∀ p ∈ ps, ∀ q ∈ qs, p.type.hash = q.type.hash → p.type.identical q.type = true)
    (sp : ∀ p ∈ ps, p.key.utf8ByteSize < UInt64.size) (sq : ∀ q ∈ qs, q.key.utf8ByteSize < UInt64.size)
    (hl : ps.length = qs.length) {r r' : List UInt8} (h : propBytes ps ++ r = propBytes qs ++ r') :
    identicalProps ps qs = true ∧ r = r' := by
  induction ps generalizing qs with
  | nil =>
    cases qs with
    | nil => exact ⟨rfl, h⟩
    | cons => cases hl
  | cons p ps ih =>
    cases qs with
    | nil => cases hl
    | cons q qs =>
      simp only [propBytes, List.flatMap_cons, List.append_assoc] at h
      obtain ⟨hk, h⟩ := text_cancel (sp _ List.mem_cons_self) (sq _ List.mem_cons_self) h
      obtain ⟨hw, h⟩ := word_cancel h
      obtain ⟨ho, h⟩ := bool_cancel h
      obtain ⟨hro, h⟩ := bool_cancel h
      have head := same p List.mem_cons_self q List.mem_cons_self hw
      obtain ⟨tail, hr⟩ := ih (fun z hz w hw => same z (List.mem_cons_of_mem _ hz) w (List.mem_cons_of_mem _ hw))
        (fun z hz => sp z (List.mem_cons_of_mem _ hz)) (fun z hz => sq z (List.mem_cons_of_mem _ hz)) (Nat.succ.inj hl) h
      exact ⟨by simp_all [identicalProps], hr⟩

omit C in
theorem identicalIndex_of_bytes {i j : Option (IndexSignature Ty)}
    (same : ∀ x, i = some x → ∀ y, j = some y → x.value.hash = y.value.hash → x.value.identical y.value = true)
    (h : indexBytes i = indexBytes j) : identicalIndex i j = true := by
  cases i with
  | none =>
    cases j with
    | none => rfl
    | some y =>
      have := congrArg List.length h
      simp [indexBytes, wordBytes, length_lowBytes] at this
  | some x =>
    cases j with
    | none =>
      have := congrArg List.length h
      simp [indexBytes, wordBytes, length_lowBytes] at this
    | some y =>
      obtain ⟨hw, h⟩ := word_cancel h
      have hv := same x rfl y rfl (wordBytes_inj h)
      simp [identicalIndex, primCode_inj hw, hv]

/-- The constraint of a placeholder may be missing. -/
theorem identical_constraint {name name' : String} {x y : Ty} (hx : Covered H x) (hy : Covered H y)
    (same : ∀ u ∈ (infer name x).parts, ∀ v ∈ (infer name' y).parts, u.hash = v.hash → u.identical v = true)
    (h : x.hash = y.hash) : x.identical y = true := by
  by_cases hxa : x = absent
  · exact identical_of_reserved (by rw [hxa]; rfl) (stream_eq_none_of_hash C hy (by rw [hxa]; rfl) h) h
  by_cases hya : y = absent
  · exact identical_of_reserved (stream_eq_none_of_hash C hx (by rw [hya]; rfl) h.symm) (by rw [hya]; rfl) h
  have given : ∀ {name : String} {z : Ty}, z ≠ absent → z ∈ (infer name z).parts := by
    intro name z hz
    cases z <;> first | exact List.mem_cons_self | exact absurd rfl hz
  exact same x (given hxa) y (given hya) h

/-- Types of one variant with the same bytes after its code are identical if parts with equal hashes are. -/
theorem identical_of_body {t u : Ty} (ht : Covered H t) (hu : Covered H u)
    (same : ∀ x ∈ t.parts, ∀ y ∈ u.parts, x.hash = y.hash → x.identical y = true) (hk : t.kind? = u.kind?)
    (hb : t.body = u.body) : t.identical u = true := by
  cases t with
  | absent | any | unknown | void | never => cases u <;> first | rfl | cases hk
  | prim p =>
    cases u with
    | prim q => simp [identical, primCode_inj (wordBytes_inj hb)]
    | _ => cases hk
  | literal p s =>
    cases u with
    | literal q t =>
      obtain ⟨hp, hb⟩ := word_cancel hb
      obtain ⟨rfl, -⟩ := text_cancel ht.own hu.own (congrArg (· ++ []) hb)
      simp [identical, primCode_inj hp]
    | _ => cases hk
  | template xs =>
    cases u with
    | template ys =>
      obtain ⟨hl, hb⟩ := nat_cancel ht.own.1 hu.own.1 hb
      exact (identicalSegments_of_bytes same (fun t hm => hash_ne_zero C (ht.part hm) (ht.filled _ .self t hm))
        (fun t hm => hash_ne_zero C (hu.part hm) (hu.filled _ .self t hm)) ht.own.2 hu.own.2 hl (congrArg (· ++ []) hb)).1
    | _ => cases hk
  | object ps i =>
    cases u with
    | object qs j =>
      obtain ⟨hl, hb⟩ := nat_cancel ht.own.1 hu.own.1 hb
      have prop : ∀ {ps : List (Property Ty)} {i} {p}, p ∈ ps → p.type ∈ (object ps i).parts := fun hm =>
        List.mem_append_left _ (List.mem_map_of_mem hm)
      have value : ∀ {ps : List (Property Ty)} {i}, i.value ∈ (object ps (some i)).parts := fun {_ _} =>
        List.mem_append_right _ List.mem_cons_self
      obtain ⟨hp, hb⟩ := identicalProps_of_bytes (fun p hp q hq => same _ (prop hp) _ (prop hq)) ht.own.2 hu.own.2 hl hb
      have hi : identicalIndex i j = true := by
        refine identicalIndex_of_bytes ?_ hb
        rintro x rfl y rfl
        exact same _ value _ value
      simp [identical, hp, hi]
    | _ => cases hk
  | array x r =>
    cases u with
    | array y s =>
      obtain ⟨hx, hb⟩ := word_cancel hb
      obtain ⟨rfl, -⟩ := bool_cancel (congrArg (· ++ []) hb)
      simp [identical, same x List.mem_cons_self y List.mem_cons_self hx]
    | _ => cases hk
  | tuple xs | union xs | intersection xs =>
    cases u with
    | tuple ys | union ys | intersection ys =>
      first
        | cases hk; done
        | obtain ⟨hl, hb⟩ := nat_cancel ht.own hu.own hb
          exact (identicalAll_of_bytes same hl (congrArg (· ++ []) hb)).1
    | _ => cases hk
  | param n _ _ =>
    cases u with
    | param m _ _ =>
      obtain ⟨rfl, -⟩ := text_cancel ht.own hu.own (congrArg (· ++ []) hb)
      simp [identical]
    | _ => cases hk
  | infer n x =>
    cases u with
    | infer m y =>
      obtain ⟨rfl, hr⟩ := text_cancel ht.own hu.own hb
      simp [identical, identical_constraint C ht.constraint hu.constraint same (wordBytes_inj hr)]
    | _ => cases hk
  | conditional c d y n e =>
    cases u with
    | conditional c' d' y' n' e' =>
      obtain ⟨hc, hb⟩ := word_cancel hb
      obtain ⟨hd, hb⟩ := word_cancel hb
      obtain ⟨hy, hb⟩ := word_cancel hb
      obtain ⟨hn, hb⟩ := word_cancel hb
      obtain ⟨rfl, -⟩ := bool_cancel (congrArg (· ++ []) hb)
      have hc := same c (by simp [parts]) c' (by simp [parts]) hc
      have hd := same d (by simp [parts]) d' (by simp [parts]) hd
      have hy := same y (by simp [parts]) y' (by simp [parts]) hy
      have hn := same n (by simp [parts]) n' (by simp [parts]) hn
      simp [identical, hc, hd, hy, hn]
    | _ => cases hk
  | reference n xs =>
    cases u with
    | reference m ys =>
      obtain ⟨rfl, hr⟩ := text_cancel ht.own.1 hu.own.1 hb
      obtain ⟨hl, hr⟩ := nat_cancel ht.own.2 hu.own.2 hr
      have args : identicalAll xs ys = true := (identicalAll_of_bytes same hl (congrArg (· ++ []) hr)).1
      simp [identical, args]
    | _ => cases hk
  | function xs x =>
    cases u with
    | function ys y =>
      obtain ⟨hl, hb⟩ := nat_cancel ht.own hu.own hb
      obtain ⟨hxs, hb⟩ := identicalAll_of_bytes
        (fun t hm v hv => same t (List.mem_append_left _ hm) v (List.mem_append_left _ hv)) hl hb
      have result := same x (List.mem_append_right _ List.mem_cons_self) y (List.mem_append_right _ List.mem_cons_self)
        (wordBytes_inj hb)
      simp [identical, hxs, result]
    | _ => cases hk
  | keyOf x =>
    cases u with
    | keyOf y => exact same x List.mem_cons_self y List.mem_cons_self (wordBytes_inj hb)
    | _ => cases hk
  | access x i =>
    cases u with
    | access y j =>
      obtain ⟨hx, hb⟩ := word_cancel hb
      have hx := same x (by simp [parts]) y (by simp [parts]) hx
      have hi := same i (by simp [parts]) j (by simp [parts]) (wordBytes_inj hb)
      simp [identical, hx, hi]
    | _ => cases hk
  | mapping f x =>
    cases u with
    | mapping g y =>
      obtain ⟨hf, hb⟩ := word_cancel hb
      simp [identical, mappingCode_inj hf, same x List.mem_cons_self y List.mem_cons_self (wordBytes_inj hb)]
    | _ => cases hk

/-- Types with equal hashes are identical. -/
theorem identical_of_hash (t u : Ty) (ht : Covered H t) (hu : Covered H u) (h : t.hash = u.hash) : t.identical u = true := by
  induction t using parts_induction generalizing u with
  | step t ih =>
    cases hs : t.stream? with
    | none => exact identical_of_reserved hs (stream_eq_none_of_hash C hu hs h) h
    | some s =>
      obtain ⟨hk, hb⟩ := frame_of_hash C ht hu h (by rw [hs]; nofun)
      exact identical_of_body C ht hu (fun x hx y hy => ih x hx y (ht.part hx) (hu.part hy)) hk hb

end Collisionless

end TypeCalculus.Ty
