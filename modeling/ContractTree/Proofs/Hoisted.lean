import ContractTree.Proofs.Chain
import ContractTree.Store.Edit

/-!
What lowering the reads of an expression amounts to, said on trees and without a store. `Hoisted c ν ts es ts'`
says that the trees `ts` become `ts'` with the statements `es` in front: a complete access becomes a reference to a
temporary, after the statements for its keys and a read that binds the temporary; anything else keeps its top. The
identities of the temporaries are from `ν` on, which stands for the first that is new.

Nothing that is left refers to storage (`Hoisted.clean`), trees that do not refer to storage are left alone
(`Hoisted.eq_of_clean`), and lowering the first access in pre-order and then the rest is lowering them all
(`Finds.hoisted`).
-/

namespace ContractTree

namespace Tree

/-! ## Properties of all subtrees -/

mutual

/-- Whether `P` holds of the tree and of all trees below it. -/
def All (P : Tree → Prop) : Tree → Prop
  | .node i ty l hs bs os => P (.node i ty l hs bs os) ∧ AllOf P hs ∧ AllOf P bs ∧ AllOf P os

def AllOf (P : Tree → Prop) : List Tree → Prop
  | [] => True
  | t :: ts => All P t ∧ AllOf P ts

end

variable {P : Tree → Prop} {c : Catalog} {ν : NodeId} {t : Tree}

theorem allOf_iff (ts : List Tree) : AllOf P ts ↔ ∀ t ∈ ts, t.All P := by
  induction ts with
  | nil => simp [AllOf]
  | cons t ts ih => simp [AllOf, ih]

theorem all_lists : t.All P ↔
    P t ∧ (∀ k ∈ t.heads, k.All P) ∧ (∀ k ∈ t.body, k.All P) ∧ ∀ k ∈ t.orelse, k.All P := by
  cases t
  simp only [All, allOf_iff, heads_node, body_node, orelse_node]

theorem all_iff : t.All P ↔ P t ∧ ∀ k ∈ t.kids, k.All P := by
  rw [all_lists, kids]
  simp only [List.forall_mem_append, and_assoc]

theorem All.top (h : t.All P) : P t := (all_iff.1 h).1

theorem All.kid {k : Tree} (h : t.All P) (hk : k ∈ t.kids) : k.All P := (all_iff.1 h).2 k hk

theorem All.mono {Q : Tree → Prop} (h : t.All P) (hPQ : ∀ u, P u → Q u) : t.All Q := by
  induction t with
  | step t ih => exact all_iff.2 ⟨hPQ t h.top, fun k hk => ih k hk (h.kid hk)⟩

theorem all_leaf {i : NodeId} {ty : Option Ty} {l : Label} : (leaf i ty l).All P ↔ P (leaf i ty l) := by
  rw [all_iff]
  simp [leaf]

theorem all_true : t.All fun _ => True := by
  induction t with
  | step t ih => exact all_iff.2 ⟨trivial, ih⟩

theorem all_id_iff {X : List NodeId} : (t.All fun u => u.id ∈ X) ↔ t.ids ⊆ X := by
  induction t with
  | step t ih =>
    rw [all_iff, ids_eq, List.cons_subset]
    refine and_congr_right fun _ => ⟨fun h i hi => ?_, fun h k hk => (ih k hk).2 fun i hi => h ?_⟩
    · obtain ⟨k, hk, hi⟩ := List.mem_flatMap.1 hi
      exact (ih k hk).1 (h k hk) hi
    · exact List.mem_flatMap.2 ⟨k, hk, hi⟩

/-- The property holds of what is in a place. -/
theorem All.of_plug {C : Ctx} (h : (C.plug t).All P) : t.All P := by
  induction C generalizing t with
  | nil => exact h
  | cons f C ih => exact (ih h).kid (by simp)

theorem All.base (h : t.All P) : t.base.All P := by
  induction t with
  | step t ih =>
    unfold Tree.base
    split
    · exact ih _ (by simp) (h.kid (by simp))
    · exact h

theorem All.key (h : t.All P) {l : Link} (hl : l ∈ t.links) : l.key.All P := by
  induction t with
  | step t ih =>
    unfold links at hl
    split at hl
    · rcases List.mem_append.1 hl with hl | hl
      · exact ih _ (by simp) (h.kid (by simp)) hl
      · rw [List.mem_singleton.1 hl]
        exact h.kid (by simp)
    · simp at hl

/-- Whether the tree has no member of `self` that the catalog lists. -/
def Clean (c : Catalog) (t : Tree) : Prop := t.All fun u => u.receiver? c = none

theorem Clean.reach (h : t.Clean c) : t.reach c = none := (All.base h).top

theorem Clean.access? (h : t.Clean c) : t.access? c = none := by rw [Tree.access?, h.reach]; rfl

theorem Clean.kid {k : Tree} (h : t.Clean c) (hk : k ∈ t.kids) : k.Clean c := All.kid h hk

/-- Two trees that agree at the top: only what is below may differ. -/
structure Alike (t u : Tree) : Prop where
  id : u.id = t.id
  ty : u.ty = t.ty
  label : u.label = t.label
  heads : u.heads.length = t.heads.length
  body : u.body.length = t.body.length
  orelse : u.orelse.length = t.orelse.length

theorem Alike.trans {u w : Tree} (h : t.Alike u) (h' : u.Alike w) : t.Alike w :=
  ⟨h'.id.trans h.id, h'.ty.trans h.ty, h'.label.trans h.label, h'.heads.trans h.heads, h'.body.trans h.body,
    h'.orelse.trans h.orelse⟩

theorem alike_plug (f : Frame) (k k' : Tree) : (f.plug [k]).Alike (f.plug [k']) := by
  refine ⟨by simp, by simp, by simp, ?_, ?_, ?_⟩ <;> unfold Frame.plug <;> split <;> simp

end Tree

/-! ## The statements that lowering makes -/

/-- The temporary with identity `i`, in the place where it is bound. -/
def tempLeaf (i : NodeId) (ty : Option Ty) : Tree := .leaf i ty (.name (tempName i))

/-- A reference to the temporary with identity `temp`. -/
def tempRef (i temp : NodeId) (ty : Option Ty) : Tree := .leaf i ty (.name (tempName temp))

/-- The name of the slot of a variable. -/
def slotLeaf (i : NodeId) (v : StorageVar) : Tree := .leaf i (some v.slotTy) (.name v.slotName)

/-- A read of the slot of `v` under `keys`, which binds the temporary `temp`. -/
def readTree (i temp slot : NodeId) (v : StorageVar) (ty : Option Ty) (keys : List Tree) : Tree :=
  .node i ty .storageRead (tempLeaf temp ty :: slotLeaf slot v :: keys) [] []

theorem tempName_ne_self (i : NodeId) : tempName i ≠ "self" := by
  intro h
  have := congrArg String.toList h
  simp [tempName, String.toList_append] at this

theorem tempName_injective : Function.Injective tempName := by
  intro i j h
  have hlist := congrArg String.toList h
  simp only [tempName, NodeId.text, String.toList_append, List.append_cancel_left_eq,
    Nat.toString_eq_ofList_toDigits, String.toList_ofList] at hlist
  have hnat : i.toNat = j.toNat := by
    rw [← Nat.ofDigitChars_ten_toDigits (n := i.toNat), hlist, Nat.ofDigitChars_ten_toDigits]
  cases i
  cases j
  exact congrArg NodeId.mk (UInt32.toNat_inj.1 hnat)

/-- The trees become others, with statements in front, by lowering the complete accesses in them. -/
inductive Hoisted (c : Catalog) (ν : NodeId) : List Tree → List Tree → List Tree → Prop where
  | nil : Hoisted c ν [] [] []
  | access {t : Tree} {v : StorageVar} {es ks ts es' ts' : List Tree} (i temp slot read : NodeId) (hnew : ν ≤ temp)
      (ht : t.access? c = some v) (hk : Hoisted c ν (t.links.map Link.key) es ks) (hts : Hoisted c ν ts es' ts') :
      Hoisted c ν (t :: ts) (es ++ readTree read temp slot v (some (t.ty.getD v.value)) ks :: es')
        (tempRef i temp (some (t.ty.getD v.value)) :: ts')
  | inner {t t' : Tree} {es ts es' ts' : List Tree} (ht : t.receiver? c = none) (ha : t.Alike t')
      (hk : Hoisted c ν t.kids es t'.kids) (hts : Hoisted c ν ts es' ts') :
      Hoisted c ν (t :: ts) (es ++ es') (t' :: ts')

namespace Hoisted

variable {c : Catalog} {ν : NodeId} {t t' : Tree} {ts ts' es es' us us' : List Tree}

theorem cons (h : Hoisted c ν [t] es [t']) (hs : Hoisted c ν ts es' ts') :
    Hoisted c ν (t :: ts) (es ++ es') (t' :: ts') := by
  cases h with
  | access i temp slot read hnew ht hk hts =>
    cases hts
    rw [List.append_assoc]
    exact access i temp slot read hnew ht hk hs
  | inner ht ha hk hts =>
    cases hts
    rw [List.append_nil]
    exact inner ht ha hk hs

theorem append (h : Hoisted c ν ts es ts') (hs : Hoisted c ν us es' us') :
    Hoisted c ν (ts ++ us) (es ++ es') (ts' ++ us') := by
  induction h with
  | nil => exact hs
  | access i temp slot read hnew ht hk _ _ ih =>
    rw [List.append_assoc]
    exact access i temp slot read hnew ht hk ih
  | inner ht ha hk _ _ ih =>
    rw [List.append_assoc]
    exact inner ht ha hk ih

theorem length_eq (h : Hoisted c ν ts es ts') : ts'.length = ts.length := by
  induction h with
  | nil => rfl
  | access _ _ _ _ _ _ _ _ _ ih => simp [ih]
  | inner _ _ _ _ _ ih => simp [ih]

/-- The parts of a list are lowered one after the other. -/
theorem append_inv (h : Hoisted c ν (ts ++ us) es ts') :
    ∃ e₁ e₂ t₁ t₂, es = e₁ ++ e₂ ∧ ts' = t₁ ++ t₂ ∧ Hoisted c ν ts e₁ t₁ ∧ Hoisted c ν us e₂ t₂ := by
  induction ts generalizing es ts' with
  | nil => exact ⟨[], es, [], ts', rfl, rfl, .nil, h⟩
  | cons t ts ih =>
    cases h with
    | access i temp slot read hnew ht hk hts =>
      obtain ⟨e₁, e₂, t₁, t₂, rfl, rfl, h1, h2⟩ := ih hts
      exact ⟨_, e₂, _, t₂, by rw [List.append_assoc]; rfl, rfl, access i temp slot read hnew ht hk h1, h2⟩
    | inner ht ha hk hts =>
      obtain ⟨e₁, e₂, t₁, t₂, rfl, rfl, h1, h2⟩ := ih hts
      exact ⟨_, e₂, _, t₂, by rw [List.append_assoc], rfl, inner ht ha hk h1, h2⟩

/-- **What does not refer to storage is left alone.** -/
theorem of_clean (h : ∀ t ∈ ts, t.Clean c) : Hoisted c ν ts [] ts := by
  have one : ∀ t : Tree, t.Clean c → Hoisted c ν [t] [] [t] := by
    intro t
    induction t with
    | step t ih =>
      intro ht
      have hk : ∀ ks : List Tree, (∀ k ∈ ks, k ∈ t.kids) → Hoisted c ν ks [] ks := by
        intro ks
        induction ks with
        | nil => exact fun _ => .nil
        | cons k ks ihk =>
          intro hks
          have hkt := hks k List.mem_cons_self
          exact (ih k hkt (ht.kid hkt)).cons (ihk fun j hj => hks j (List.mem_cons_of_mem _ hj))
      have := inner ht.top ⟨rfl, rfl, rfl, rfl, rfl, rfl⟩ (hk _ fun _ h => h) .nil
      rwa [List.append_nil] at this
  induction ts with
  | nil => exact .nil
  | cons t ts ih => exact (one t (h t List.mem_cons_self)).cons (ih fun u hu => h u (List.mem_cons_of_mem _ hu))

theorem eq_of_clean (h : Hoisted c ν ts es ts') (hc : ∀ t ∈ ts, t.Clean c) : es = [] ∧ ts' = ts := by
  induction h with
  | nil => exact ⟨rfl, rfl⟩
  | access i temp slot read hnew ht =>
    rw [(hc _ List.mem_cons_self).access?] at ht
    cases ht
  | @inner t t' es ts es' ts' ht ha hk hts ihk ihts =>
    obtain ⟨rfl, hkids⟩ := ihk fun k hk => (hc t List.mem_cons_self).kid hk
    obtain ⟨rfl, rfl⟩ := ihts fun u hu => hc u (List.mem_cons_of_mem _ hu)
    refine ⟨rfl, ?_⟩
    obtain ⟨i, ty, l, hs, bs, os⟩ := t
    obtain ⟨i', ty', l', hs', bs', os'⟩ := t'
    obtain ⟨rfl, rfl, rfl, h1, h2, h3⟩ := ha
    have hkids : hs' ++ bs' ++ os' = hs ++ bs ++ os := hkids
    obtain ⟨hhb, rfl⟩ := List.append_inj hkids (by simpa using by simp_all)
    obtain ⟨rfl, rfl⟩ := List.append_inj hhb h1
    rfl

/-! ## What is left -/

/-- The top of a tree is kept, or it is a reference to a temporary. -/
theorem label_cases (h : Hoisted c ν [t] es [t']) :
    (t'.label = t.label ∧ t.receiver? c = none) ∨ (∃ i, t'.label = .name (tempName i)) := by
  cases h with
  | access i temp slot read hnew ht hk hts => exact .inr ⟨temp, rfl⟩
  | inner ht ha hk hts => exact .inl ⟨ha.label, ht⟩

theorem receiver?_eq_none (ht : t.receiver? c = none) (ha : t.Alike t') (hk : Hoisted c ν t.kids es t'.kids) :
    t'.receiver? c = none := by
  obtain ⟨i, ty, l, hs, bs, os⟩ := t
  obtain ⟨i', ty', l', hs', bs', os'⟩ := t'
  obtain ⟨rfl, rfl, rfl, h1, h2, h3⟩ := ha
  by_cases hl : ∃ attr, l' = .member attr
  · obtain ⟨attr, rfl⟩ := hl
    rcases hs' with _ | ⟨v', _ | ⟨w, hs'⟩⟩
    · rfl
    · obtain ⟨v, rfl⟩ := List.length_eq_one_iff.1 (show hs.length = 1 from h1.symm)
      obtain ⟨ev, hv⟩ : ∃ es, Hoisted c ν [v] es [v'] := by
        have hk : Hoisted c ν ([v] ++ (bs ++ os)) es ([v'] ++ (bs' ++ os')) := by simpa using hk
        obtain ⟨e₁, e₂, t₁, t₂, -, heq, hh, -⟩ := hk.append_inv
        obtain ⟨rfl, -⟩ := List.append_inj heq (by simpa using hh.length_eq.symm)
        exact ⟨_, hh⟩
      simp only [Tree.receiver?] at ht ⊢
      rcases hv.label_cases with ⟨hl, -⟩ | ⟨j, hl⟩
      · rw [hl]
        exact ht
      · rw [hl, if_neg]
        simpa using tempName_ne_self j
    · rfl
  · exact Tree.receiver?_of_label fun attr he => hl ⟨attr, he⟩

theorem clean_name {i : NodeId} {ty : Option Ty} {x : String} : (Tree.leaf i ty (.name x)).Clean c :=
  Tree.all_leaf.2 (Tree.receiver?_of_label (by simp [Tree.leaf]))

theorem readTree_clean {i temp slot : NodeId} {v : StorageVar} {ty : Option Ty} {ks : List Tree}
    (hk : ∀ k ∈ ks, k.Clean c) : (readTree i temp slot v ty ks).Clean c := by
  refine Tree.all_iff.2 ⟨Tree.receiver?_of_label (by simp [readTree]), fun k hk' => ?_⟩
  simp only [readTree, Tree.kids_node, List.append_nil, List.mem_cons] at hk'
  rcases hk' with rfl | rfl | hk'
  · exact clean_name
  · exact clean_name
  · exact hk k hk'

/-- **Nothing that is left refers to storage.** -/
theorem clean (h : Hoisted c ν ts es ts') : (∀ t ∈ ts', t.Clean c) ∧ ∀ e ∈ es, e.Clean c := by
  induction h with
  | nil => simp
  | access i temp slot read hnew ht hk hts ihk ihts =>
    constructor
    · intro u hu
      rcases List.mem_cons.1 hu with rfl | hu
      · exact clean_name
      · exact ihts.1 u hu
    · intro e he
      rcases List.mem_append.1 he with he | he
      · exact ihk.2 e he
      · rcases List.mem_cons.1 he with rfl | he
        · exact readTree_clean ihk.1
        · exact ihts.2 e he
  | inner ht ha hk hts ihk ihts =>
    constructor
    · intro u hu
      rcases List.mem_cons.1 hu with rfl | hu
      · exact Tree.all_iff.2 ⟨receiver?_eq_none ht ha hk, ihk.1⟩
      · exact ihts.1 u hu
    · intro e he
      exact (List.mem_append.1 he).elim (ihk.2 e) (ihts.2 e)

end Hoisted

/-! ## The first access -/

/-- `u`, in the place `D` of the tree, is the first complete access in pre-order, and nothing above or before it
refers to storage. -/
inductive Finds (c : Catalog) : Tree → Ctx → Tree → Prop where
  | here {t : Tree} {v : StorageVar} (h : t.access? c = some v) : Finds c t [] t
  | deeper {f : Frame} {k u : Tree} {D : Ctx} (ht : (f.plug [k]).receiver? c = none)
      (ha : (f.plug [k]).access? c = none) (hb : ∀ b ∈ f.before, b.Clean c) (hk : Finds c k D u) :
      Finds c (f.plug [k]) (D ++ [f]) u

namespace Finds

variable {c : Catalog} {ν : NodeId} {t u : Tree} {D : Ctx} {i : NodeId} {ty : Option Ty} {y : String}

theorem plug_eq (h : Finds c t D u) : D.plug u = t := by
  induction h with
  | here h => rfl
  | deeper ht ha hb hk ih =>
    rw [Ctx.plug_append, ih]
    rfl

/-- With a name in the place of the first access, the tree is not a chain on a member of `self`. -/
theorem reach_plug (h : Finds c t D u) (hf : (D.plug (.leaf i ty (.name y))).Fits) (hy : y ≠ "self") :
    (D.plug (.leaf i ty (.name y))).reach c = none := by
  induction h with
  | here h => exact (Hoisted.clean_name (c := c)).reach
  | @deeper f k u D ht hacc hb hk ih =>
    rw [Ctx.plug_append, Ctx.plug_cons, Ctx.plug_nil] at hf ⊢
    have hfk : (D.plug (.leaf i ty (.name y))).Fits := hf.kid (by simp)
    rcases hf.subscript_cases with ⟨j, ty', v, k', hv⟩ | hl
    · -- the place is what is subscripted, or the key
      rw [hv, Tree.reach, Tree.base]
      have hkids := congrArg Tree.kids hv
      rw [Frame.kids_plug] at hkids
      cases hbef : f.before with
      | nil =>
        rw [hbef] at hkids
        obtain rfl : D.plug (.leaf i ty (.name y)) = v := by simpa using (List.cons.inj hkids).1
        exact ih hfk
      | cons b bs =>
        rw [hbef] at hkids
        obtain rfl : b = v := (List.cons.inj hkids).1
        exact (hb b (by simp [hbef])).reach
    · rw [Tree.reach, Tree.base_of_label hl]
      rcases hf.member_cases with ⟨j, ty', attr, v, hv⟩ | hm
      · rw [hv, Tree.receiver?]
        have hkids := congrArg Tree.kids hv
        rw [Frame.kids_plug] at hkids
        have hv' : D.plug (.leaf i ty (.name y)) = v := by
          have hmem : D.plug (.leaf i ty (.name y)) ∈ f.before ++ [D.plug (.leaf i ty (.name y))] ++ f.after := by
            simp
          rw [hkids] at hmem
          simpa using hmem
        rw [if_neg]
        rw [← hv']
        cases D with
        | nil => simpa [Tree.leaf] using hy
        | cons g D =>
          -- a name has no place in it
          intro hname
          obtain ⟨D', g', hD⟩ : ∃ D' g', g :: D = D' ++ [g'] := by
            rcases List.eq_nil_or_concat (g :: D) with h | ⟨D', g', h⟩
            · cases h
            · exact ⟨D', g', by rw [h, List.concat_eq_append]⟩
          rw [hD, Ctx.plug_append, Ctx.plug_cons, Ctx.plug_nil] at hname hfk
          have h0 := ((Tree.fits_iff _).1 hfk).1
          rw [hname] at h0
          have hlen := congrArg List.length (Frame.kids_plug g' [Ctx.plug D' (.leaf i ty (.name y))])
          simp only [Tree.kids, List.length_append, List.length_singleton] at hlen
          simp only [Label.Fits] at h0
          omega
      · exact Tree.receiver?_of_label hm

/-- **Lowering the first access and then the rest is lowering them all.** -/
theorem hoisted {e₁ e₂ : List Tree} {t' : Tree} (h : Finds c t D u)
    (hu : Hoisted c ν [u] e₁ [.leaf i ty (.name y)]) (hy : y ≠ "self") (hf : (D.plug (.leaf i ty (.name y))).Fits)
    (hx : Hoisted c ν [D.plug (.leaf i ty (.name y))] e₂ [t']) : Hoisted c ν [t] (e₁ ++ e₂) [t'] := by
  induction h generalizing t' e₂ with
  | here h =>
    obtain ⟨rfl, heq⟩ := hx.eq_of_clean (by simpa using Hoisted.clean_name)
    obtain rfl : t' = .leaf i ty (.name y) := by simpa using heq
    rw [List.append_nil]
    exact hu
  | @deeper f k u D ht hacc hb hk ih =>
    have hreach := (deeper ht hacc hb hk).reach_plug hf hy
    rw [Ctx.plug_append, Ctx.plug_cons, Ctx.plug_nil] at hf hx hreach
    cases hx with
    | access j temp slot read hnew hj =>
      rw [Tree.access?, hreach] at hj
      cases hj
    | inner hrec ha hkids hts =>
      cases hts
      rw [Frame.kids_plug] at hkids
      obtain ⟨eb, ea, kb, ka, rfl, heq, hbk, haf⟩ := hkids.append_inv
      obtain ⟨eb', em, kb', km, rfl, rfl, hbef, hmid⟩ := hbk.append_inv
      obtain ⟨rfl, rfl⟩ := hbef.eq_of_clean hb
      obtain ⟨k', rfl⟩ := List.length_eq_one_iff.1 hmid.length_eq
      have hk' := ih hu (hf.kid (by simp)) hmid
      have hall := ((Hoisted.of_clean hb).append hk').append haf
      rw [List.append_nil, List.nil_append]
      have hkids : Hoisted c ν (f.plug [k]).kids ((e₁ ++ em) ++ ea) t'.kids := by
        rw [heq, Frame.kids_plug]
        simpa using hall
      have := Hoisted.inner ht ((Tree.alike_plug f k _).trans ha) hkids .nil
      simpa using this

end Finds

end ContractTree
