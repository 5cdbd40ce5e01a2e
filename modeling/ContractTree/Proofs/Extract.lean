import ContractTree.Proofs.Faithful

/-!
What lowering makes, as functions of the source and of the identities that are handed out. `Tree.extract` takes the
complete accesses out of expressions: it gives the reads, in the order in which they are evaluated, and the
expressions with references in the places of the accesses. `Tree.share` makes two keys of each key.

Both ways in which the pass lowers reads come to `extract`: the one that is used for the operands of an assignment
to storage (`Hoisted.exists_numbers`), and the walk over all other expressions (`Walked.exists_numbers`). The
temporaries, and the keys that are copied, have identities that were handed out by the pass (`NewIds`).
-/

namespace ContractTree

/-- The identities that one read takes. -/
structure ReadIds where
  reference : NodeId
  temp : NodeId
  slot : NodeId
  read : NodeId
  deriving Inhabited

/-- What comes of expressions: the reads in front of them, the expressions then, and the identities that are left.
-/
structure Extraction where
  reads : List Tree
  trees : List Tree
  rest : List ReadIds

/-- The identities that are there for one key. -/
structure KeyIds where
  bind : NodeId
  temp : NodeId
  forRead : NodeId
  forWrite : NodeId
  deriving Inhabited

/-- What comes of keys that are used twice: the statements that bind them, the keys of the read and of the write,
and the temporaries. -/
structure Sharing where
  binds : List Tree
  reads : List Tree
  writes : List Tree
  temps : List NodeId

/-- The identities that an assignment to storage takes beside its reads. -/
structure StoreIds where
  bind : NodeId
  temp : NodeId
  slot : NodeId
  operand : NodeId
  write : NodeId

/-- The identities that an augmented assignment to storage takes beside its reads and its keys. -/
structure CombineIds where
  current : NodeId
  combined : NodeId
  readSlot : NodeId
  writeSlot : NodeId
  read : NodeId
  currentRef : NodeId
  combination : NodeId
  compute : NodeId
  combinedRef : NodeId
  write : NodeId

namespace Tree

variable {c : Catalog} {t : Tree} {ts : List Tree} {v : StorageVar} {supply : List ReadIds}

/-! ## Reads -/

theorem length_keys_lt (t : Tree) : ((t.links.map Link.key).flatMap ids).length < t.ids.length := by
  induction t with
  | step t ih =>
    unfold links
    split
    · next i ty x k bs os =>
      have hx := ih x (by simp)
      simp only [List.map_append, List.map_cons, List.map_nil, List.flatMap_append, List.flatMap_cons,
        List.flatMap_nil, List.append_nil, List.length_append, ids_eq (.node i ty .subscript [x, k] bs os),
        kids_node, List.cons_append, List.length_cons, List.nil_append]
      omega
    · exact t.length_ids_pos

theorem length_heads_lt (t : Tree) : (t.heads.flatMap ids).length < t.ids.length := by
  rw [ids_eq, kids]
  simp only [List.flatMap_append, List.length_cons, List.length_append]
  omega

/-- **The reads of expressions, and the expressions without them.** A complete access has the reads of its keys,
from left to right, and then a read of its own, which binds a temporary; a reference to the temporary comes in its
place. Anything else has the reads of its heads. -/
def extract (c : Catalog) (supply : List ReadIds) : List Tree → Extraction
  | [] => ⟨[], [], supply⟩
  | t :: ts =>
    match t.access? c with
    | some v =>
      let keys := extract c supply (t.links.map Link.key)
      let ids := keys.rest.headD default
      let ty := some (t.ty.getD v.value)
      let after := extract c keys.rest.tail ts
      ⟨keys.reads ++ readTree ids.read ids.temp ids.slot v ty keys.trees :: after.reads,
        tempRef ids.reference ids.temp ty :: after.trees, after.rest⟩
    | none =>
      let below := extract c supply t.heads
      let after := extract c below.rest ts
      ⟨below.reads ++ after.reads, .node t.id t.ty t.label below.trees t.body t.orelse :: after.trees, after.rest⟩
termination_by ts => (ts.flatMap Tree.ids).length
decreasing_by
  all_goals simp only [List.flatMap_cons, List.length_append]
  · have := t.length_keys_lt
    omega
  · have := t.length_ids_pos
    omega
  · have := t.length_heads_lt
    omega
  · have := t.length_ids_pos
    omega

@[simp] theorem extract_nil : extract c supply [] = ⟨[], [], supply⟩ := by rw [extract]

theorem extract_of_access (h : t.access? c = some v) : extract c supply (t :: ts) =
    let keys := extract c supply (t.links.map Link.key)
    let ids := keys.rest.headD default
    let ty := some (t.ty.getD v.value)
    let after := extract c keys.rest.tail ts
    ⟨keys.reads ++ readTree ids.read ids.temp ids.slot v ty keys.trees :: after.reads,
      tempRef ids.reference ids.temp ty :: after.trees, after.rest⟩ := by
  rw [extract, h]

theorem extract_of_no_access (h : t.access? c = none) : extract c supply (t :: ts) =
    let below := extract c supply t.heads
    let after := extract c below.rest ts
    ⟨below.reads ++ after.reads, .node t.id t.ty t.label below.trees t.body t.orelse :: after.trees,
      after.rest⟩ := by
  rw [extract, h]

/-! ## Keys that are used twice -/

/-- **Two keys for each key.** A name or a literal is used as it is by the read, and copied for the write. Any
other key is bound to a temporary, and both use references to that. -/
def share : List KeyIds → List Tree → Sharing
  | _, [] => ⟨[], [], [], []⟩
  | supply, k :: ks =>
    let ids := supply.headD default
    let after := share supply.tail ks
    if k.kind.isAtom then
      ⟨after.binds, k :: after.reads, .leaf ids.forWrite k.ty k.label :: after.writes, after.temps⟩
    else
      ⟨assignTree ids.bind (tempLeaf ids.temp k.ty) k :: after.binds,
        tempRef ids.forRead ids.temp k.ty :: after.reads,
        tempRef ids.forWrite ids.temp k.ty :: after.writes, ids.temp :: after.temps⟩

/-! ## Assignments to storage -/

/-- The statements in front of the write that an assignment of `value` to the variable becomes, and the write. -/
def storing (v : StorageVar) (n : StoreIds) (reads keys : List Tree) (value : Tree) : List Tree × Tree :=
  let ty := some v.value
  (reads ++ [assignTree n.bind (tempLeaf n.temp ty) value],
    writeTree n.write n.slot v ty keys (tempRef n.operand n.temp ty))

/-- The statements in front of the write that an augmented assignment of `value` to the variable becomes, and the
write. -/
def combining (v : StorageVar) (op : BinOp) (n : CombineIds) (reads : List Tree) (keys : Sharing) (value : Tree) :
    List Tree × Tree :=
  let ty := some v.value
  let combination : Tree := .node n.combination ty (.binOp op) [tempRef n.currentRef n.current ty, value] [] []
  (reads ++ keys.binds ++ [readTree n.read n.current n.readSlot v ty keys.reads,
      assignTree n.compute (tempLeaf n.combined ty) combination],
    writeTree n.write n.writeSlot v ty keys.writes (tempRef n.combinedRef n.combined ty))

end Tree

/-! ## New identities -/

/-- The identities are from `ν` on, and those of nodes in the trees, in the order of the trees. -/
structure NewIds (ν : NodeId) (is : List NodeId) (es : List Tree) : Prop where
  new : ∀ i ∈ is, ν ≤ i
  sublist : is.Sublist (es.flatMap Tree.ids)

namespace NewIds

variable {ν i : NodeId} {is js : List NodeId} {t : Tree} {es fs : List Tree}

theorem nil : NewIds ν [] es := ⟨by simp, List.nil_sublist _⟩

theorem singleton (hnew : ν ≤ i) (hi : i ∈ t.ids) : NewIds ν [i] [t] := ⟨by simpa using hnew, by simpa using hi⟩

theorem append (h : NewIds ν is es) (hs : NewIds ν js fs) : NewIds ν (is ++ js) (es ++ fs) := by
  refine ⟨List.forall_mem_append.2 ⟨h.new, hs.new⟩, ?_⟩
  rw [List.flatMap_append]
  exact h.sublist.append hs.sublist

/-- The temporary that a read binds. -/
theorem read {temp slot : NodeId} {v : StorageVar} {ty : Option Ty} {ks : List Tree} (hnew : ν ≤ temp) :
    NewIds ν [temp] [readTree i temp slot v ty ks] :=
  singleton hnew (by simp [readTree, tempLeaf, Tree.leaf, Tree.ids, Tree.idsAll])

/-- The temporary that an assignment binds. -/
theorem assign {temp : NodeId} {ty : Option Ty} {x : Tree} (hnew : ν ≤ temp) :
    NewIds ν [temp] [assignTree i (tempLeaf temp ty) x] :=
  singleton hnew (by simp [assignTree, tempLeaf, Tree.leaf, Tree.ids, Tree.idsAll])

end NewIds

/-- The identities of `supply` number the reads of the trees `ts`, which are `es` in front of `ts'`. -/
structure Numbers (c : Catalog) (ν : NodeId) (supply : List ReadIds) (ts es ts' : List Tree) : Prop where
  length : supply.length = es.length
  extract : ∀ rest, Tree.extract c (supply ++ rest) ts = ⟨es, ts', rest⟩
  temps : NewIds ν (supply.map ReadIds.temp) es

namespace Hoisted

variable {c : Catalog} {ν : NodeId} {t t' : Tree} {ts es ts' : List Tree} {v : StorageVar}

/-- What is lowered part by part is no access. -/
theorem access?_eq_none (hf : t.Fits) (ht : t.receiver? c = none) (hk : Hoistable c t.kids) :
    t.access? c = none := by
  rw [Option.eq_none_iff_forall_ne_some]
  intro v hv
  obtain ⟨hr, hd⟩ := Tree.access?_eq_some_iff.1 hv
  rcases hf.subscript_cases with ⟨i, ty, x, k, rfl⟩ | hl
  · rw [Tree.links, List.length_append, List.length_singleton] at hd
    exact (Hoistable.iff_forall.1 hk x (by simp)).not_short (hf.kid (by simp)) ⟨v, hr, by omega⟩
  · rw [Tree.reach, Tree.base_of_label hl, ht] at hr
    cases hr

/-- **Lowering reads one after the other is extraction.** -/
theorem exists_numbers (h : Hoisted c ν ts es ts') (hf : ∀ t ∈ ts, t.Fits) (hflat : ∀ t ∈ ts, t.Flat) :
    ∃ supply, Numbers c ν supply ts es ts' := by
  induction h with
  | nil => exact ⟨[], rfl, by simp, .nil⟩
  | @access t v es ks ts es' ts' i temp slot read hnew ht hk hts ihk ihts =>
    obtain ⟨first, h₁⟩ := ihk (Tree.fits_key (hf t List.mem_cons_self)) fun k hk => by
      obtain ⟨l, hl, rfl⟩ := List.mem_map.1 hk
      exact (hflat t List.mem_cons_self).key hl
    obtain ⟨second, h₂⟩ := ihts (fun u hu => hf u (List.mem_cons_of_mem _ hu))
      fun u hu => hflat u (List.mem_cons_of_mem _ hu)
    refine ⟨first ++ ⟨i, temp, slot, read⟩ :: second, ?_, fun rest => ?_, ?_⟩
    · simp [h₁.length, h₂.length]
    · rw [Tree.extract_of_access ht, List.append_assoc, h₁.extract]
      simp [h₂.extract]
    · simpa using h₁.temps.append ((NewIds.read hnew).append h₂.temps)
  | @inner t t' es ts es' ts' ht ha hk hts ihk ihts =>
    have hft := hf t List.mem_cons_self
    have hnone := access?_eq_none hft ht hk.hoistable
    obtain ⟨first, h₁⟩ := ihk (fun k hk => hft.kid hk) fun k hk => (hflat t List.mem_cons_self).kid hk
    obtain ⟨second, h₂⟩ := ihts (fun u hu => hf u (List.mem_cons_of_mem _ hu))
      fun u hu => hflat u (List.mem_cons_of_mem _ hu)
    -- there are no statement lists, so the children are the heads
    obtain ⟨hb, ho⟩ := (hflat t List.mem_cons_self).top
    obtain ⟨i, ty, l, hs, bs, os⟩ := t
    obtain ⟨i', ty', l', hs', bs', os'⟩ := t'
    obtain ⟨hid, hty, hlabel, -, hb', ho'⟩ := ha
    obtain rfl : i' = i := hid
    obtain rfl : ty' = ty := hty
    obtain rfl : l' = l := hlabel
    obtain rfl : bs = [] := hb
    obtain rfl : os = [] := ho
    obtain rfl : bs' = [] := List.length_eq_zero_iff.1 hb'
    obtain rfl : os' = [] := List.length_eq_zero_iff.1 ho'
    simp only [Tree.kids_node, List.append_nil] at h₁
    refine ⟨first ++ second, ?_, fun rest => ?_, ?_⟩
    · simp [h₁.length, h₂.length]
    · rw [Tree.extract_of_no_access hnone, List.append_assoc]
      simp [h₁.extract, h₂.extract]
    · simpa using h₁.temps.append h₂.temps

end Hoisted

/-- What is no statement has no statements in it. -/
theorem Tree.Proper.isExpr {t : Tree} (h : t.Proper) (hf : t.Fits) (hl : t.label.isStatement = false) :
    t.IsExpr := by
  induction t with
  | step t ih =>
    obtain ⟨hb, ho⟩ := hf.no_lists hl
    refine Tree.all_iff.2 ⟨⟨hb, ho, fun h => ?_, fun op h => ?_⟩, fun k hk => ih k hk (h.kid hk) (hf.kid hk) ?_⟩
    · rw [h] at hl
      cases hl
    · rw [h] at hl
      cases hl
    · rw [Tree.kids, hb, ho, List.append_nil, List.append_nil] at hk
      exact h.top.1 k hk

/-- **The walk over expressions is extraction.** -/
theorem Walked.exists_numbers {c : Catalog} {ν : NodeId} {ts es ts' : List Tree} (h : Walked c ν false ts es ts')
    (ht : ∀ t ∈ ts, t.Fits ∧ t.Proper ∧ t.label.isStatement = false) : ∃ supply, Numbers c ν supply ts es ts' :=
  (h.hoisted fun t hmem => (ht t hmem).2.1.isExpr (ht t hmem).1 (ht t hmem).2.2).exists_numbers
    (fun t hmem => (ht t hmem).1) fun t hmem => (ht t hmem).2.1.flat (ht t hmem).1 (ht t hmem).2.2

/-- **Sharing keys one after the other is `share`.** The keys of the write are new. -/
theorem SharedAll.exists_ids {ν : NodeId} {ks bs rs ws : List Tree} (h : SharedAll ν ks bs rs ws) :
    ∃ supply temps, supply.length = ks.length ∧ Tree.share supply ks = ⟨bs, rs, ws, temps⟩ ∧ NewIds ν temps bs ∧
      ∀ k ∈ ws, ν ≤ k.id := by
  induction h with
  | nil => exact ⟨[], [], rfl, rfl, .nil, by simp⟩
  | @cons k r w bs ks bs' rs ws h hs ih =>
    obtain ⟨supply, temps, hlen, hshare, htemps, hkeys⟩ := ih
    cases h with
    | @atom i ty l copy hnew hatom =>
      refine ⟨⟨default, default, default, copy⟩ :: supply, temps, by simp [hlen], ?_, htemps,
        List.forall_mem_cons.2 ⟨hnew, hkeys⟩⟩
      rw [Tree.share, if_pos (by exact hatom)]
      simp [hshare, Tree.leaf]
    | bound bind temp forRead forWrite hnew hatom =>
      refine ⟨⟨bind, temp, forRead, forWrite⟩ :: supply, temp :: temps, by simp [hlen], ?_,
        (NewIds.assign hnew.1).append htemps, List.forall_mem_cons.2 ⟨hnew.2, hkeys⟩⟩
      rw [Tree.share, if_neg (by simp [hatom])]
      simp [hshare]

/-! ## Assignments to storage, numbered -/

section Assignments

open ContractTree.Tree (storing combining share)

variable {c : Catalog} {ν : NodeId} {t t' : Tree} {es : List Tree} {i : NodeId} {ty : Option Ty} {l : Label}
  {target value : Tree} {v : StorageVar}

theorem Tree.label_of_receiver? (h : t.receiver? c = some v) : ∃ attr, t.label = .member attr := by
  by_contra hne
  rw [Tree.receiver?_of_label fun attr he => hne ⟨attr, he⟩] at h
  cases h

/-- What reaches storage is no statement. -/
theorem Tree.isStatement_of_reach (h : t.reach c = some v) : t.label.isStatement = false := by
  by_cases hl : t.label = .subscript
  · rw [hl]
    rfl
  · rw [Tree.reach, Tree.base_of_label hl] at h
    obtain ⟨attr, hl⟩ := Tree.label_of_receiver? h
    rw [hl]
    rfl

/-- The operands of an assignment to storage are expressions. -/
theorem Tree.Proper.operands (hp : (Tree.node i ty l [target, value] [] []).Proper)
    (hf : (Tree.node i ty l [target, value] [] []).Fits) :
    (∀ x ∈ value :: target.links.map Link.key, x.Fits) ∧ ∀ x ∈ value :: target.links.map Link.key, x.Flat := by
  have hflat : ∀ x ∈ [target, value], x.Flat := fun x hx =>
    Tree.Proper.flat (hp.kid (by simpa using hx)) (hf.kid (by simpa using hx)) (hp.top.1 x hx)
  refine ⟨List.forall_mem_cons.2 ⟨hf.kid (by simp), Tree.fits_key (hf.kid (by simp))⟩, List.forall_mem_cons.2
    ⟨hflat value (by simp), fun k hk => ?_⟩⟩
  obtain ⟨link, hlink, rfl⟩ := List.mem_map.1 hk
  exact (hflat target (by simp)).key hlink

/-- An assignment to storage, with its reads numbered, becomes what `storing` says. -/
theorem Stored.exists_ids (h : Stored c ν (.node i ty .assign [target, value] [] []) es t')
    (hf : (Tree.node i ty .assign [target, value] [] []).Fits)
    (hp : (Tree.node i ty .assign [target, value] [] []).Proper) :
    ∃ v supply n reads value' keys, target.access? c = some v ∧
      Numbers c ν supply (value :: target.links.map Link.key) reads (value' :: keys) ∧
      storing v n reads keys value' = (es, t') ∧ NewIds ν (supply.map ReadIds.temp ++ [n.temp]) es := by
  obtain ⟨hfits, hflat⟩ := hp.operands hf
  cases h with
  | @mk _ _ _ _ value' v e₁ e₂ ks bind temp slot operand write hnew ht hval hks =>
    obtain ⟨supply, hnum⟩ := (hval.append hks).exists_numbers hfits hflat
    exact ⟨v, supply, ⟨bind, temp, slot, operand, write⟩, _, value', ks, ht, hnum, rfl,
      hnum.temps.append (.assign hnew)⟩

/-- An augmented assignment to storage, with its reads and keys numbered, becomes what `combining` says. -/
theorem Combined.exists_ids {op : BinOp}
    (h : Combined c ν (.node i ty (.augAssign op) [target, value] [] []) es t')
    (hf : (Tree.node i ty (.augAssign op) [target, value] [] []).Fits)
    (hp : (Tree.node i ty (.augAssign op) [target, value] [] []).Proper) :
    ∃ v supply keySupply n reads value' keys, target.access? c = some v ∧
      Numbers c ν supply (value :: target.links.map Link.key) reads (value' :: keys) ∧
      keySupply.length = keys.length ∧ combining v op n reads (share keySupply keys) value' = (es, t') ∧
      NewIds ν (supply.map ReadIds.temp ++ (share keySupply keys).temps ++ [n.current, n.combined]) es ∧
      ∀ k ∈ (share keySupply keys).writes, ν ≤ k.id := by
  obtain ⟨hfits, hflat⟩ := hp.operands hf
  cases h with
  | @mk _ _ _ _ _ value' v e₁ e₂ ks bs rs ws current combined readSlot writeSlot read currentRef
      combination compute combinedRef write hnew ht hval hks hsh =>
    obtain ⟨supply, hnum⟩ := (hval.append hks).exists_numbers hfits hflat
    obtain ⟨keySupply, temps, hlen, hshare, htemps, hkeys⟩ := hsh.exists_ids
    refine ⟨v, supply, keySupply,
      ⟨current, combined, readSlot, writeSlot, read, currentRef, combination, compute, combinedRef, write⟩, _,
      value', ks, ht, hnum, hlen, by rw [hshare]; rfl, ?_, by rwa [hshare]⟩
    rw [hshare]
    exact (hnum.temps.append htemps).append ((NewIds.read hnew.1).append (.assign hnew.2))

end Assignments

end ContractTree
