import TypeCalculus.Proofs.Hash.Types
import TypeCalculus.Declaration

/-! Bindings and declarations with equal hashes are equal, as long as no two of the hashed streams collide and all
    parameters take their annotations from one assignment. -/

namespace TypeCalculus

/-- A type whose hash tells it: besides what identity tells, its parameters are annotated by an assignment. -/
structure Ty.Known (H : Bytes → Prop) (α : Ty.Annotation) (t : Ty) : Prop where
  covered : t.Covered H
  annotated : t.AnnotatedBy α

/-! ### What is hashed -/

/-- The stream that the hash of bindings sums up. -/
def Subst.stream (s : Subst) : Bytes :=
  s.entries.foldl (fun b (n, t) => (b.text n).word t.hash) (Bytes.nat {} s.entries.length)

def Declaration.stream (d : Declaration) : Bytes :=
  (d.params.foldl (fun b p => ((b.text p.name).word p.constraint.hash).word p.default.hash)
    ((Bytes.text {} d.name).nat d.params.length)).word d.body.hash

def Declarations.stream (ds : Declarations) : Bytes :=
  ds.entries.foldl (fun b d => b.word d.hash) (Bytes.nat {} ds.entries.length)

theorem Subst.hash_stream (s : Subst) : s.hash = s.stream.hash := rfl
theorem Declaration.hash_stream (d : Declaration) : d.hash = d.stream.hash := rfl
theorem Declarations.hash_stream (ds : Declarations) : ds.hash = ds.stream.hash := rfl

/-- The bytes of a list are those of its items one after another. -/
theorem toList_foldl {α : Type} {add : Bytes → α → Bytes} {f : α → List UInt8}
    (h : ∀ b a, (add b a).toList = b.toList ++ f a) (b : Bytes) (xs : List α) :
    (xs.foldl add b).toList = b.toList ++ xs.flatMap f := by
  induction xs generalizing b with
  | nil => simp
  | cons x xs ih => rw [List.foldl_cons, ih, h, List.flatMap_cons, List.append_assoc]

def entryBytes (e : String × Ty) : List UInt8 := textBytes e.1 ++ wordBytes e.2.hash

def paramBytes (p : ParamDecl) : List UInt8 :=
  textBytes p.name ++ (wordBytes p.constraint.hash ++ wordBytes p.default.hash)

theorem Subst.toList_stream (s : Subst) :
    s.stream.toList = wordBytes s.entries.length.toUInt64 ++ s.entries.flatMap entryBytes := by
  rw [stream, toList_foldl (f := entryBytes) (by simp [entryBytes])]
  simp

theorem Declaration.toList_stream (d : Declaration) :
    d.stream.toList = textBytes d.name ++ (wordBytes d.params.length.toUInt64 ++
      (d.params.flatMap paramBytes ++ wordBytes d.body.hash)) := by
  rw [stream, Bytes.toList_word, toList_foldl (f := paramBytes) (by simp [paramBytes])]
  simp

theorem Declarations.toList_stream (ds : Declarations) :
    ds.stream.toList = wordBytes ds.entries.length.toUInt64 ++ ds.entries.flatMap fun d => wordBytes d.hash := by
  rw [stream, toList_foldl (f := fun d : Declaration => wordBytes d.hash) (by simp)]
  simp

/-! ### What the hashes tell -/

structure Subst.Known (H : Bytes → Prop) (α : Ty.Annotation) (s : Subst) : Prop where
  hashed : H s.stream
  size : s.entries.length < UInt64.size
  names : ∀ e ∈ s.entries, e.1.utf8ByteSize < UInt64.size
  types : ∀ e ∈ s.entries, e.2.Known H α

structure Declaration.Known (H : Bytes → Prop) (α : Ty.Annotation) (d : Declaration) : Prop where
  hashed : H d.stream
  name : d.name.utf8ByteSize < UInt64.size
  size : d.params.length < UInt64.size
  names : ∀ p ∈ d.params, p.name.utf8ByteSize < UInt64.size
  constraints : ∀ p ∈ d.params, p.constraint.Known H α
  defaults : ∀ p ∈ d.params, p.default.Known H α
  body : d.body.Known H α

structure Declarations.Known (H : Bytes → Prop) (α : Ty.Annotation) (ds : Declarations) : Prop where
  hashed : H ds.stream
  size : ds.entries.length < UInt64.size
  entries : ∀ d ∈ ds.entries, d.Known H α

section Collisionless
variable {H : Bytes → Prop} (C : Collisionless H) {α : Ty.Annotation}
include C

theorem Ty.eq_of_hash {t u : Ty} (ht : t.Known H α) (hu : u.Known H α) (h : t.hash = u.hash) : t = u :=
  ht.annotated.eq_of_identical hu.annotated (identical_of_hash C t u ht.covered hu.covered h)

theorem Subst.eq_of_hash {s s' : Subst} (hs : s.Known H α) (hs' : s'.Known H α) (h : s.hash = s'.hash) : s = s' := by
  rw [hash_stream, hash_stream] at h
  have bytes := congrArg Bytes.toList (C.apart _ _ hs.hashed hs'.hashed h)
  rw [toList_stream, toList_stream] at bytes
  obtain ⟨hl, hb⟩ := nat_cancel hs.size hs'.size bytes
  have entries : s.entries = s'.entries := by
    refine (flatMap_cancel (fun a ha b hb x y h => ?_) hl (congrArg (· ++ []) hb)).1
    obtain ⟨m, t⟩ := a
    obtain ⟨n, u⟩ := b
    simp only [entryBytes, List.append_assoc] at h
    obtain ⟨rfl, hr⟩ := text_cancel (hs.names _ ha) (hs'.names _ hb) h
    obtain ⟨ht, hxy⟩ := word_cancel hr
    obtain rfl := Ty.eq_of_hash C (hs.types _ ha) (hs'.types _ hb) ht
    exact ⟨rfl, hxy⟩
  cases s
  cases s'
  exact congrArg Subst.mk entries

theorem Declaration.eq_of_hash {d e : Declaration} (hd : d.Known H α) (he : e.Known H α) (h : d.hash = e.hash) :
    d = e := by
  rw [hash_stream, hash_stream] at h
  have bytes := congrArg Bytes.toList (C.apart _ _ hd.hashed he.hashed h)
  rw [toList_stream, toList_stream] at bytes
  obtain ⟨hn, hb⟩ := text_cancel hd.name he.name bytes
  obtain ⟨hl, hb⟩ := nat_cancel hd.size he.size hb
  have params : d.params = e.params ∧ wordBytes d.body.hash = wordBytes e.body.hash := by
    refine flatMap_cancel (fun p hp q hq x y h => ?_) hl hb
    obtain ⟨m, c, t⟩ := p
    obtain ⟨n, c', u⟩ := q
    simp only [paramBytes, List.append_assoc] at h
    obtain ⟨rfl, hr⟩ := text_cancel (hd.names _ hp) (he.names _ hq) h
    obtain ⟨hc, hr⟩ := word_cancel hr
    obtain ⟨ht, hxy⟩ := word_cancel hr
    obtain rfl := Ty.eq_of_hash C (hd.constraints _ hp) (he.constraints _ hq) hc
    obtain rfl := Ty.eq_of_hash C (hd.defaults _ hp) (he.defaults _ hq) ht
    exact ⟨rfl, hxy⟩
  have body := Ty.eq_of_hash C hd.body he.body (wordBytes_inj params.2)
  cases d
  cases e
  rw [Declaration.mk.injEq]
  exact ⟨hn, params.1, body⟩

/-- What is declared is told by the hash of all declarations. -/
theorem Declarations.eq_of_hash {ds es : Declarations} (hd : ds.Known H α) (he : es.Known H α)
    (h : ds.hash = es.hash) : ds = es := by
  rw [hash_stream, hash_stream] at h
  have bytes := congrArg Bytes.toList (C.apart _ _ hd.hashed he.hashed h)
  rw [toList_stream, toList_stream] at bytes
  obtain ⟨hl, hb⟩ := nat_cancel hd.size he.size bytes
  have entries : ds.entries = es.entries := by
    refine (flatMap_cancel (fun d hm e hm' x y h => ?_) hl (congrArg (· ++ []) hb)).1
    obtain ⟨hw, hr⟩ := word_cancel h
    exact ⟨Declaration.eq_of_hash C (hd.entries d hm) (he.entries e hm') hw, hr⟩
  cases ds
  cases es
  exact congrArg Declarations.mk entries

end Collisionless

end TypeCalculus
