import ContractTree.Proofs.Visit

/-!
What the walk amounts to, said on trees and without a store. `Walked c ν false ts es ts'` says that the trees `ts`,
outside of statement lists, become `ts'` with the statements `es` in front of the statement that they are in. In a
statement list, `Walked c ν true ts [] ts'`, the statements for each tree stand in the list itself, in front of the
tree.

The walk leaves alone what does not refer to storage (`Walked.eq_of_clean`), and nothing that it leaves refers to
storage (`Walked.clean`). The body of the module is walked as a queue, since getters are put at its end (`Rooted`).
-/

namespace ContractTree

/-- The trees become others, with statements in front, by a walk over them. -/
inductive Walked (c : Catalog) (ν : NodeId) : Bool → List Tree → List Tree → List Tree → Prop where
  | nil {inList : Bool} : Walked c ν inList [] [] []
  | rewrite {t t' : Tree} {es ts es' ts' : List Tree} (ht : Rewritten c ν t es t')
      (hts : Walked c ν false ts es' ts') : Walked c ν false (t :: ts) (es ++ es') (t' :: ts')
  | inner {i : NodeId} {ty : Option Ty} {l : Label} {hs bs os es hs' bs' os' ts es' ts' : List Tree}
      (hr : (Tree.node i ty l hs bs os).receiver? c = none)
      (ht : (l = .assign ∨ ∃ op, l = .augAssign op) → ∀ target ∈ hs.head?, target.reach c = none)
      (hh : Walked c ν false hs es hs') (hb : Walked c ν true bs [] bs') (ho : Walked c ν true os [] os')
      (hts : Walked c ν false ts es' ts') :
      Walked c ν false (.node i ty l hs bs os :: ts) (es ++ es') (.node i ty l hs' bs' os' :: ts')
  | stmt {t t' : Tree} {es ts ts' : List Tree} (ht : Walked c ν false [t] es [t'])
      (hts : Walked c ν true ts [] ts') : Walked c ν true (t :: ts) [] (es ++ t' :: ts')

/-! ## Properties of what lowering makes and keeps -/

/-- `P` holds of every node that lowering makes. -/
structure Makes (c : Catalog) (P : Tree → Prop) : Prop where
  atom : ∀ {i : NodeId} {ty : Option Ty} {l : Label}, (l.kind [] [] []).isAtom = true → P (.leaf i ty l)
  read : ∀ {i temp slot : NodeId} {v : StorageVar} {ty : Option Ty} {ks : List Tree}, v ∈ c → ks.length = v.depth →
    P (readTree i temp slot v ty ks)
  write : ∀ {i slot : NodeId} {v : StorageVar} {ty : Option Ty} {ks : List Tree} {x : Tree}, v ∈ c →
    ks.length = v.depth → P (writeTree i slot v ty ks x)
  assign : ∀ {i temp : NodeId} {ty : Option Ty} {y : Tree}, P (assignTree i (tempLeaf temp ty) y)
  binOp : ∀ {i : NodeId} {ty : Option Ty} {op : BinOp} {x y : Tree}, P (.node i ty (.binOp op) [x, y] [] [])

/-- Besides, `P` holds of every node that lowering keeps, if `Q` held of it. -/
structure Carries (c : Catalog) (Q P : Tree → Prop) : Prop extends Makes c P where
  keep : ∀ {i : NodeId} {ty : Option Ty} {l : Label} {hs bs os hs' bs' os' : List Tree}, hs'.length = hs.length →
    Q (.node i ty l hs bs os) → P (.node i ty l hs' bs' os')

theorem Tree.mem_of_access {c : Catalog} {t : Tree} {v : StorageVar} (h : t.access? c = some v) :
    v ∈ c ∧ v.depth = t.links.length := by
  obtain ⟨hr, hd⟩ := Tree.access?_eq_some_iff.1 h
  refine ⟨?_, hd⟩
  rw [Tree.reach] at hr
  unfold Tree.receiver? at hr
  split at hr
  · split at hr
    · exact List.mem_of_find?_eq_some hr
    · cases hr
  · cases hr

theorem SharedAll.length_eq {ν : NodeId} {ks bs rs ws : List Tree} (h : SharedAll ν ks bs rs ws) :
    rs.length = ks.length ∧ ws.length = ks.length := by
  induction h with
  | nil => exact ⟨rfl, rfl⟩
  | cons _ _ ih => exact ⟨by simp [ih.1], by simp [ih.2]⟩

namespace Makes

variable {c : Catalog} {ν : NodeId} {Q P : Tree → Prop} {t t' : Tree} {es ks bs rs ws : List Tree}
  {i temp slot : NodeId} {ty : Option Ty} {v : StorageVar} {x y : Tree}

theorem name (h : Makes c P) {x : String} : (Tree.leaf i ty (.name x)).All P := Tree.all_leaf.2 (h.atom rfl)

theorem all_read (h : Makes c P) (hv : v ∈ c) (hk : ks.length = v.depth) (hks : ∀ k ∈ ks, k.All P) :
    (readTree i temp slot v ty ks).All P := by
  refine Tree.all_iff.2 ⟨h.read hv hk, fun k hk' => ?_⟩
  simp only [readTree, Tree.kids_node, List.append_nil, List.mem_cons] at hk'
  rcases hk' with rfl | rfl | hk'
  · exact h.name
  · exact h.name
  · exact hks k hk'

theorem all_write (h : Makes c P) (hv : v ∈ c) (hk : ks.length = v.depth) (hks : ∀ k ∈ ks, k.All P)
    (hx : x.All P) : (writeTree i slot v ty ks x).All P := by
  refine Tree.all_iff.2 ⟨h.write hv hk, fun k hk' => ?_⟩
  simp only [writeTree, Tree.kids_node, List.append_nil, List.mem_cons, List.mem_append, List.not_mem_nil,
    or_false] at hk'
  rcases hk' with rfl | hk' | rfl
  · exact h.name
  · exact hks k hk'
  · exact hx

theorem all_assign (h : Makes c P) (hy : y.All P) : (assignTree i (tempLeaf temp ty) y).All P := by
  refine Tree.all_iff.2 ⟨h.assign, fun k hk => ?_⟩
  simp only [assignTree, Tree.kids_node, List.append_nil, List.mem_cons, List.not_mem_nil, or_false] at hk
  rcases hk with rfl | rfl
  · exact h.name
  · exact hy

theorem all_binOp (h : Makes c P) {op : BinOp} (hx : x.All P) (hy : y.All P) :
    (Tree.node i ty (.binOp op) [x, y] [] []).All P := by
  refine Tree.all_iff.2 ⟨h.binOp, fun k hk => ?_⟩
  simp only [Tree.kids_node, List.append_nil, List.mem_cons, List.not_mem_nil, or_false] at hk
  rcases hk with rfl | rfl
  · exact hx
  · exact hy

theorem shared (h : Makes c P) (hs : SharedAll ν ks bs rs ws) (hk : ∀ k ∈ ks, k.All P) :
    (∀ b ∈ bs, b.All P) ∧ (∀ r ∈ rs, r.All P) ∧ ∀ w ∈ ws, w.All P := by
  induction hs with
  | nil => simp
  | @cons k r w bs ks bs' rs ws hone hs ih =>
    obtain ⟨ih1, ih2, ih3⟩ := ih fun k hk' => hk k (List.mem_cons_of_mem _ hk')
    have hkP := hk k List.mem_cons_self
    have hthis : (∀ b ∈ bs, b.All P) ∧ r.All P ∧ w.All P := by
      cases hone with
      | atom copy hnew hatom => exact ⟨by simp, hkP, Tree.all_leaf.2 (h.atom hatom)⟩
      | bound bind temp forRead forWrite hnew _ =>
        refine ⟨fun b hb => ?_, h.name, h.name⟩
        obtain rfl := List.mem_singleton.1 hb
        exact h.all_assign hkP
    refine ⟨fun b hb => (List.mem_append.1 hb).elim (hthis.1 b) (ih1 b), ?_, ?_⟩
    · exact List.forall_mem_cons.2 ⟨hthis.2.1, ih2⟩
    · exact List.forall_mem_cons.2 ⟨hthis.2.2, ih3⟩

/-- What a node is rewritten to has the property if the trees have it that reads are hoisted from: the node itself
where it is an access, and what is below it where it stores to one. -/
theorem rewritten (h : Makes c P)
    (hh : ∀ {ts es ts' : List Tree}, Hoisted c ν ts es ts' → (∀ t ∈ ts, t.All Q) → (∀ t ∈ ts', t.All P) ∧
      ∀ e ∈ es, e.All P)
    (hr : Rewritten c ν t es t') (hQ : (t.access? c).isSome = true → Q t) (hkids : ∀ k ∈ t.kids, k.All Q) :
    t'.All P ∧ ∀ e ∈ es, e.All P := by
  have hkeys : ∀ {u : Tree}, u.All Q → ∀ k ∈ u.links.map Link.key, k.All Q := by
    intro u hu k hk
    obtain ⟨l, hl, rfl⟩ := List.mem_map.1 hk
    exact hu.key hl
  cases hr with
  | read i temp ty ht hes => exact ⟨h.name, (hh hes (by simpa using Tree.all_iff.2 ⟨hQ (by simp [ht]), hkids⟩)).2⟩
  | store hst =>
    obtain ⟨_, _, _, _, _, -, ht, hval, hks⟩ := hst
    obtain ⟨hv, hd⟩ := Tree.mem_of_access ht
    have h1 := hh hval (by simpa using hkids _ (by simp))
    have h2 := hh hks (hkeys (hkids _ (by simp)))
    refine ⟨h.all_write hv (by rw [hks.length_eq, hd, List.length_map]) h2.1 h.name, fun e he => ?_⟩
    simp only [List.mem_append, List.mem_singleton] at he
    rcases he with (he | he) | rfl
    · exact h1.2 e he
    · exact h2.2 e he
    · exact h.all_assign (h1.1 _ List.mem_cons_self)
  | combine hst =>
    obtain ⟨_, _, _, _, _, _, _, _, _, _, -, ht, hval, hks, hsh⟩ := hst
    obtain ⟨hv, hd⟩ := Tree.mem_of_access ht
    have h1 := hh hval (by simpa using hkids _ (by simp))
    have h2 := hh hks (hkeys (hkids _ (by simp)))
    obtain ⟨hbs, hrs, hws⟩ := h.shared hsh h2.1
    have hd' := hks.length_eq.trans ((List.length_map ..).trans hd.symm)
    refine ⟨h.all_write hv (hsh.length_eq.2.trans hd') hws h.name, fun e he => ?_⟩
    simp only [List.mem_append, List.mem_cons, List.not_mem_nil, or_false] at he
    rcases he with ((he | he) | he) | rfl | rfl
    · exact h1.2 e he
    · exact h2.2 e he
    · exact hbs e he
    · exact h.all_read hv (hsh.length_eq.1.trans hd') hrs
    · exact h.all_assign (h.all_binOp h.name (h1.1 _ List.mem_cons_self))

end Makes

theorem Carries.hoisted {c : Catalog} {ν : NodeId} {Q P : Tree → Prop} {ts es ts' : List Tree} (h : Carries c Q P)
    (hh : Hoisted c ν ts es ts') (hQ : ∀ t ∈ ts, t.All Q) : (∀ t ∈ ts', t.All P) ∧ ∀ e ∈ es, e.All P := by
  induction hh with
  | nil => simp
  | @access t v es ks ts es' ts' i temp slot read hnew ht hk hts ihk ihts =>
    have iht := ihts fun u hu => hQ u (List.mem_cons_of_mem _ hu)
    obtain ⟨hks, hes⟩ := ihk fun k hk => by
      obtain ⟨l, hl, rfl⟩ := List.mem_map.1 hk
      exact (hQ t List.mem_cons_self).key hl
    obtain ⟨hv, hd⟩ := Tree.mem_of_access ht
    refine ⟨List.forall_mem_cons.2 ⟨h.name, iht.1⟩, fun e he => ?_⟩
    rcases List.mem_append.1 he with he | he
    · exact hes e he
    · rcases List.mem_cons.1 he with rfl | he
      · exact h.all_read hv (by rw [hk.length_eq, hd, List.length_map]) hks
      · exact iht.2 e he
  | @inner t t' es ts es' ts' hr ha hk hts ihk ihts =>
    have iht := ihts fun u hu => hQ u (List.mem_cons_of_mem _ hu)
    have hkid := ihk fun k hk => (hQ t List.mem_cons_self).kid hk
    have htop : P t' := by
      have hq := (hQ t List.mem_cons_self).top
      obtain ⟨i, ty, l, hs, bs, os⟩ := t
      obtain ⟨i', ty', l', hs', bs', os'⟩ := t'
      obtain ⟨rfl, rfl, rfl, hlen, -, -⟩ := ha
      exact h.keep hlen hq
    exact ⟨List.forall_mem_cons.2 ⟨Tree.all_iff.2 ⟨htop, hkid.1⟩, iht.1⟩, List.forall_mem_append.2 ⟨hkid.2, iht.2⟩⟩

theorem Carries.rewritten {c : Catalog} {ν : NodeId} {Q P : Tree → Prop} {t t' : Tree} {es : List Tree}
    (h : Carries c Q P) (hr : Rewritten c ν t es t') (hQ : t.All Q) : t'.All P ∧ ∀ e ∈ es, e.All P :=
  h.toMakes.rewritten h.hoisted hr (fun _ => hQ.top) fun _ hk => hQ.kid hk

theorem makes_clean {c : Catalog} : Makes c fun u => u.receiver? c = none where
  atom {i ty l} hatom := Tree.receiver?_of_label fun attr he => by
    obtain rfl : l = Label.member attr := he
    cases hatom
  read _ _ := Tree.receiver?_of_label (by simp [readTree])
  write _ _ := Tree.receiver?_of_label (by simp [writeTree])
  assign := Tree.receiver?_of_label (by simp [assignTree])
  binOp := Tree.receiver?_of_label (by simp)

namespace Rewritten

variable {c : Catalog} {ν : NodeId} {t t' : Tree} {es : List Tree}

/-- Only what refers to storage is rewritten. -/
theorem not_clean (h : Rewritten c ν t es t') : ¬ t.Clean c := by
  intro hc
  have htarget : ∀ {i : NodeId} {ty : Option Ty} {l : Label} {target value : Tree} {v : StorageVar},
      (Tree.node i ty l [target, value] [] []).Clean c → target.access? c ≠ some v := by
    intro i ty l target value v hc ht
    have := (hc.kid (k := target) (by simp)).access?
    rw [ht] at this
    cases this
  cases h with
  | read i temp ty ht h =>
    rw [hc.access?] at ht
    cases ht
  | store h =>
    obtain ⟨_, _, _, _, _, -, ht, -, -⟩ := h
    exact htarget hc ht
  | combine h =>
    obtain ⟨_, _, _, _, _, _, _, _, _, _, -, ht, -, -, -⟩ := h
    exact htarget hc ht

theorem clean (h : Rewritten c ν t es t') : t'.Clean c ∧ ∀ e ∈ es, e.Clean c :=
  makes_clean.rewritten (fun hh _ => hh.clean) h (fun _ => trivial) fun _ _ => Tree.all_true

/-- Something is put in front of what comes in the place of a node. -/
theorem ne_nil (h : Rewritten c ν t es t') : es ≠ [] := by
  cases h with
  | read i temp ty ht h =>
    generalize hts : [tempRef i temp ty] = ts' at h
    cases h with
    | access => simp
    | inner hr ha =>
      -- what agrees at the top with a name is no access
      obtain ⟨rfl, -⟩ := List.cons.inj hts
      have hl : t.label ≠ .subscript := by simp [← ha.label, tempRef, Tree.leaf]
      have hreach := (Tree.access?_eq_some_iff.1 ht).1
      rw [Tree.reach, Tree.base_of_label hl, hr] at hreach
      cases hreach
  | store h =>
    cases h
    simp
  | combine h =>
    cases h
    simp

end Rewritten

/-! ## Sizes -/

namespace Tree

variable {c : Catalog} {ν : NodeId} {t : Tree} {v : StorageVar}

theorem length_ids_pos : 0 < t.ids.length := by
  rw [ids_eq]
  exact Nat.succ_pos _

theorem length_le_length_flatMap (ts : List Tree) : ts.length ≤ (ts.flatMap ids).length := by
  induction ts with
  | nil => exact Nat.le_refl _
  | cons t ts ih =>
    have := t.length_ids_pos
    simp only [List.flatMap_cons, List.length_append, List.length_cons]
    omega

theorem length_ids_wrap {b : Tree} (ls : List Link) :
    (b.wrap ls).ids.length = b.ids.length + ((ls.map Link.key).flatMap ids).length + ls.length := by
  induction ls using List.reverseRecOn with
  | nil => simp
  | append_singleton ls l ih =>
    rw [wrap_concat, ids_eq]
    simp only [kids_node, List.flatMap_cons, List.flatMap_nil, List.length_cons, List.length_append,
      List.map_append, List.flatMap_append, List.map_cons, List.map_nil, List.length_nil, List.append_nil, ih]
    omega

/-- A chain on a member of `self` has two nodes beside its keys. -/
theorem length_keys_of_reach (hf : t.Fits) (h : t.reach c = some v) :
    2 + ((t.links.map Link.key).flatMap ids).length ≤ t.ids.length := by
  obtain ⟨i, ty, attr, j, ty', hb, -⟩ := exists_self_of_reach hf h
  have hlen := length_ids_wrap (b := t.base) t.links
  rw [plug_links hf, hb] at hlen
  simp only [ids_eq, kids_node, List.flatMap_cons, List.flatMap_nil, leaf, List.length_cons,
    List.append_nil, List.length_nil] at hlen ⊢
  omega

@[simp] theorem ids_leaf {i : NodeId} {ty : Option Ty} {l : Label} : (leaf i ty l).ids = [i] := rfl

end Tree

theorem Hoisted.length_ids_le {c : Catalog} {ν : NodeId} {ts es ts' : List Tree} (h : Hoisted c ν ts es ts') :
    (ts'.flatMap Tree.ids).length ≤ (ts.flatMap Tree.ids).length := by
  induction h with
  | nil => exact Nat.le_refl _
  | @access t v es ks ts es' ts' i temp slot read hnew ht hk hts ihk ihts =>
    have := t.length_ids_pos
    simp only [List.flatMap_cons, List.length_append, tempRef, Tree.ids_leaf, List.length_singleton]
    omega
  | @inner t t' es ts es' ts' ht ha hk hts ihk ihts =>
    simp only [List.flatMap_cons, List.length_append, Tree.ids_eq t, Tree.ids_eq t', List.length_cons]
    omega

theorem SharedAll.length_ids_eq {ν : NodeId} {ks bs rs ws : List Tree} (h : SharedAll ν ks bs rs ws) :
    (ws.flatMap Tree.ids).length = ks.length := by
  induction h with
  | nil => rfl
  | cons h hs ih =>
    rw [List.flatMap_cons, List.length_append, ih, List.length_cons, Nat.add_comm]
    cases h with
    | atom => simp
    | bound => simp [tempRef]

theorem length_ids_writeTree {i slot : NodeId} {v : StorageVar} {ty : Option Ty} {ks : List Tree} {x : Tree} :
    (writeTree i slot v ty ks x).ids.length = 2 + (ks.flatMap Tree.ids).length + x.ids.length := by
  rw [writeTree, Tree.ids_eq]
  simp only [Tree.kids_node, List.flatMap_cons, List.flatMap_append, List.flatMap_nil, List.append_nil, slotLeaf,
    Tree.ids_leaf, List.length_cons, List.length_append, List.length_nil]
  omega

/-- What comes in the place of a node is no larger than what was there. -/
theorem Rewritten.length_ids_le {c : Catalog} {ν : NodeId} {t t' : Tree} {es : List Tree} (hf : t.Fits)
    (h : Rewritten c ν t es t') : t'.ids.length ≤ t.ids.length := by
  cases h with
  | read i temp ty ht h => exact t.length_ids_pos
  | store h =>
    obtain @⟨_, _, target, value, _, _, _, _, ks, _, _, _, _, _, -, ht, -, hks⟩ := h
    have h1 := Tree.length_keys_of_reach (hf.kid (k := target) (by simp)) (Tree.access?_eq_some_iff.1 ht).1
    have h2 := hks.length_ids_le
    rw [length_ids_writeTree, Tree.ids_eq (.node ..)]
    simp only [tempRef, Tree.ids_leaf, Tree.kids_node, List.flatMap_cons, List.length_cons, List.length_append,
      List.append_nil, List.length_nil]
    omega
  | combine h =>
    obtain @⟨_, _, _, target, value, _, _, _, _, ks, _, _, _, _, _, _, _, _, _, _, _, _, _, -, ht, -,
      hks, hsh⟩ := h
    have h1 := Tree.length_keys_of_reach (hf.kid (k := target) (by simp)) (Tree.access?_eq_some_iff.1 ht).1
    have h2 := hks.length_ids_le
    have h3 := Tree.length_le_length_flatMap ks
    rw [length_ids_writeTree, Tree.ids_eq (.node ..), hsh.length_ids_eq]
    simp only [tempRef, Tree.ids_leaf, Tree.kids_node, List.flatMap_cons, List.length_cons, List.length_append,
      List.append_nil, List.length_nil]
    omega

namespace Walked

variable {c : Catalog} {ν : NodeId} {t t' : Tree} {ts ts' es es' : List Tree} {inList : Bool}

theorem cons (h : Walked c ν false [t] es [t']) (hts : Walked c ν false ts es' ts') :
    Walked c ν false (t :: ts) (es ++ es') (t' :: ts') := by
  cases h with
  | rewrite ht hts' =>
    cases hts'
    rw [List.append_nil]
    exact rewrite ht hts
  | inner hr ht hh hb ho hts' =>
    cases hts'
    rw [List.append_nil]
    exact inner hr ht hh hb ho hts

theorem length_eq (h : Walked c ν false ts es ts') : ts'.length = ts.length := by
  generalize hb : false = inList at h
  induction h with
  | nil => rfl
  | rewrite ht hts ih => simp [ih hb]
  | inner hr ht hh hb' ho hts _ _ _ ih => simp [ih hb]
  | stmt => cases hb

/-- **What does not refer to storage is left alone.** -/
theorem eq_of_clean (h : Walked c ν inList ts es ts') (hc : ∀ t ∈ ts, t.Clean c) : es = [] ∧ ts' = ts := by
  induction h with
  | nil => exact ⟨rfl, rfl⟩
  | rewrite ht => exact absurd (hc _ List.mem_cons_self) ht.not_clean
  | @inner i ty l hs bs os es hs' bs' os' ts es' ts' hr ht hh hb ho hts ihh ihb iho ihts =>
    obtain ⟨-, hch, hcb, hco⟩ := Tree.all_lists.1 (hc _ List.mem_cons_self)
    obtain ⟨rfl, rfl⟩ := ihh hch
    obtain ⟨-, rfl⟩ := ihb hcb
    obtain ⟨-, rfl⟩ := iho hco
    obtain ⟨rfl, rfl⟩ := ihts fun u hu => hc u (List.mem_cons_of_mem _ hu)
    exact ⟨rfl, rfl⟩
  | stmt ht hts iht ihts =>
    obtain ⟨rfl, heq⟩ := iht (by simpa using hc _ List.mem_cons_self)
    obtain ⟨-, rfl⟩ := ihts fun u hu => hc u (List.mem_cons_of_mem _ hu)
    obtain rfl := List.cons.inj heq |>.1
    exact ⟨rfl, rfl⟩

/-- The top of a tree is kept, or it is not the name `self`. -/
theorem label_cases (h : Walked c ν false [t] es [t']) : t'.label = t.label ∨ t'.label ≠ .name "self" := by
  cases h with
  | rewrite ht hts =>
    right
    cases ht with
    | read i temp ty ht h => simpa [tempRef, Tree.leaf] using tempName_ne_self temp
    | store h =>
      cases h
      simp [writeTree]
    | combine h =>
      cases h
      simp [writeTree]
  | inner => exact .inl rfl

theorem receiver?_eq_none {i : NodeId} {ty : Option Ty} {l : Label} {hs bs os hs' bs' os' : List Tree}
    (hr : (Tree.node i ty l hs bs os).receiver? c = none) (hh : Walked c ν false hs es hs') :
    (Tree.node i ty l hs' bs' os').receiver? c = none := by
  by_cases hl : ∃ attr, l = .member attr
  · obtain ⟨attr, rfl⟩ := hl
    rcases hs' with _ | ⟨v', _ | ⟨w, hs'⟩⟩
    · rfl
    · obtain ⟨v, rfl⟩ := List.length_eq_one_iff.1 hh.length_eq.symm
      simp only [Tree.receiver?] at hr ⊢
      rcases hh.label_cases with hv | hv
      · rw [hv]
        exact hr
      · rw [if_neg hv]
    · rfl
  · exact Tree.receiver?_of_label fun attr he => hl ⟨attr, he⟩

/-- **Nothing that the walk leaves refers to storage.** -/
theorem clean (h : Walked c ν inList ts es ts') : (∀ t ∈ ts', t.Clean c) ∧ ∀ e ∈ es, e.Clean c := by
  induction h with
  | nil => simp
  | rewrite ht hts ih =>
    exact ⟨List.forall_mem_cons.2 ⟨ht.clean.1, ih.1⟩, List.forall_mem_append.2 ⟨ht.clean.2, ih.2⟩⟩
  | inner hr ht hh hb ho hts ihh ihb iho ihts =>
    refine ⟨List.forall_mem_cons.2 ⟨?_, ihts.1⟩, List.forall_mem_append.2 ⟨ihh.2, ihts.2⟩⟩
    exact Tree.all_lists.2 ⟨receiver?_eq_none hr hh, ihh.1, ihb.1, iho.1⟩
  | stmt ht hts iht ihts =>
    refine ⟨fun u hu => ?_, by simp⟩
    simp only [List.mem_append, List.mem_cons] at hu
    rcases hu with hu | rfl | hu
    · exact iht.2 u hu
    · exact iht.1 _ List.mem_cons_self
    · exact ihts.1 u hu

end Walked

theorem Carries.walked {c : Catalog} {ν : NodeId} {Q P : Tree → Prop} {inList : Bool} {ts es ts' : List Tree}
    (h : Carries c Q P) (hw : Walked c ν inList ts es ts') (hQ : ∀ t ∈ ts, t.All Q) :
    (∀ t ∈ ts', t.All P) ∧ ∀ e ∈ es, e.All P := by
  induction hw with
  | nil => simp
  | rewrite ht hts ih =>
    have htop := h.rewritten ht (hQ _ List.mem_cons_self)
    have iht := ih fun u hu => hQ u (List.mem_cons_of_mem _ hu)
    exact ⟨List.forall_mem_cons.2 ⟨htop.1, iht.1⟩, List.forall_mem_append.2 ⟨htop.2, iht.2⟩⟩
  | @inner i ty l hs bs os es hs' bs' os' ts es' ts' hr ht hh hb ho hts ihh ihb iho ihts =>
    obtain ⟨hq, hQh, hQb, hQo⟩ := Tree.all_lists.1 (hQ _ List.mem_cons_self)
    have iht := ihts fun u hu => hQ u (List.mem_cons_of_mem _ hu)
    have htop : (Tree.node i ty l hs' bs' os').All P :=
      Tree.all_lists.2 ⟨h.keep hh.length_eq hq, (ihh hQh).1, (ihb hQb).1, (iho hQo).1⟩
    exact ⟨List.forall_mem_cons.2 ⟨htop, iht.1⟩, List.forall_mem_append.2 ⟨(ihh hQh).2, iht.2⟩⟩
  | stmt ht hts iht ihts =>
    have iht' := iht (by simpa using hQ _ List.mem_cons_self)
    have ihts' := ihts fun u hu => hQ u (List.mem_cons_of_mem _ hu)
    refine ⟨fun u hu => ?_, by simp⟩
    simp only [List.mem_append, List.mem_cons] at hu
    rcases hu with hu | rfl | hu
    · exact iht'.2 u hu
    · exact iht'.1 _ List.mem_cons_self
    · exact ihts'.1 u hu

/-! ## The body of the module -/

namespace Tree

/-- The variable whose getter a declaration is to have. -/
def getterVar? (c : Catalog) (d : Tree) : Option StorageVar :=
  match d.label with
  | .variableDecl _ _ _ => if d.ty.any Ty.isSlot then none else (c.declaredAt? d.id).filter (·.isPublic)
  | _ => none

/-- The names of the getters that the declarations are to have. -/
def getterNames (c : Catalog) (ds : List Tree) : List String := (ds.filterMap (getterVar? c)).map StorageVar.name

/-- Whether nothing is left to do about a declaration of the module. -/
def DeclSettled (c : Catalog) (d : Tree) : Prop := (∃ a b e, d.label = .variableDecl a b e) → d.Settled c

end Tree

/-- A declaration of a module becomes another by a walk, which asks for getters. In `names` are the names of the
functions that the module has. -/
inductive DeclWalked (c : Catalog) (ν : NodeId) (names : List String) (d : Tree) : List Tree → Tree → Prop where
  | kept {d' : Tree} (hset : d.DeclSettled c) (hd : Walked c ν false [d] [] [d']) : DeclWalked c ν names d [] d'
  | declared {d' : Tree} {gs : List Tree} {v : StorageVar} (hl : ∃ a b e, d.label = .variableDecl a b e)
      (hv : c.declaredAt? d.id = some v) (hty : d.ty.any Ty.isSlot = false) (hgs : Getters v gs)
      (hfree : v.isPublic = true → v.name ∉ names) (hd : Walked c ν false [d.declareSlot v] [] [d']) :
      DeclWalked c ν names d gs d'

/-- The declarations of a module become others by a walk that puts getters at the end. -/
inductive Rooted (c : Catalog) (ν : NodeId) : List String → List Tree → List Tree → Prop where
  | nil {names : List String} : Rooted c ν names [] []
  | cons {names : List String} {d d' : Tree} {gs ds ds' : List Tree} (hd : DeclWalked c ν names d gs d')
      (hds : Rooted c ν (names ++ Tree.functionNames gs) (ds ++ gs) ds') : Rooted c ν names (d :: ds) (d' :: ds')

namespace Tree

variable {c : Catalog} {ν : NodeId} {d : Tree} {v : StorageVar}

theorem getterVar?_of_settled (h : d.DeclSettled c) : d.getterVar? c = none := by
  unfold getterVar?
  split
  · next a b e hl =>
    cases hv : c.declaredAt? d.id with
    | none => simp
    | some v => simp [h ⟨a, b, e, hl⟩ v hv]
  · rfl

theorem getterVar?_of_declared (hl : ∃ a b e, d.label = .variableDecl a b e) (hv : c.declaredAt? d.id = some v)
    (hty : d.ty.any Ty.isSlot = false) : d.getterVar? c = if v.isPublic then some v else none := by
  obtain ⟨a, b, e, hl⟩ := hl
  cases hp : v.isPublic <;> simp [getterVar?, hl, hty, hv, Option.filter, hp]

end Tree

theorem Getter.clean {v : StorageVar} {g : Tree} {c : Catalog} (h : Getter v g) : g.Clean c := by
  refine h.all ⟨?_, ?_⟩ (fun _ => ?_) ?_ ?_ <;> exact Tree.receiver?_of_label (by simp [readTree, Tree.leaf])

theorem GetterKeys.length_ids {n : Nat} {tys : List Ty} {as rs : List Tree} (h : GetterKeys n tys as rs) :
    (as.flatMap Tree.ids).length = tys.length ∧ (rs.flatMap Tree.ids).length = tys.length := by
  induction h with
  | nil => exact ⟨rfl, rfl⟩
  | cons i j h ih => simp [ih.1, ih.2]

theorem Getter.length_ids {v : StorageVar} {g : Tree} (h : Getter v g) : g.ids.length = 2 * v.depth + 6 := by
  obtain ⟨i, read, temp, slot, result, reference, hkeys⟩ := h
  obtain ⟨h1, h2⟩ := hkeys.length_ids
  rw [Tree.ids_eq]
  simp only [Tree.kids_node, readTree, tempLeaf, slotLeaf, tempRef, List.append_nil, List.flatMap_append,
    List.flatMap_cons, List.flatMap_nil, List.length_cons, List.length_append, Tree.ids_eq (.node ..),
    Tree.ids_leaf, List.length_nil, h1, h2]
  show _ = 2 * v.keys.length + 6
  omega

namespace DeclWalked

variable {c : Catalog} {ν : NodeId} {names : List String} {d d' : Tree} {gs : List Tree}

/-- What a declaration asks for: one getter if it declares a public variable, none else. -/
theorem getters (h : DeclWalked c ν names d gs d') :
    (d.getterVar? c = none ∧ gs = []) ∨ ∃ v g, d.getterVar? c = some v ∧ gs = [g] ∧ Getter v g ∧
    v.name ∉ names := by
  cases h with
  | kept hset hd => exact .inl ⟨Tree.getterVar?_of_settled hset, rfl⟩
  | declared hl hv hty hgs hfree hd =>
    rw [Tree.getterVar?_of_declared hl hv hty]
    cases hgs with
    | none hp => exact .inl ⟨by simp [hp], rfl⟩
    | one hp hg => exact .inr ⟨_, _, by simp [hp], rfl, hg, hfree hp⟩

theorem label (h : DeclWalked c ν names d gs d') : d'.label = d.label := by
  have hkeep : ∀ {u : Tree}, Walked c ν false [u] [] [d'] → d'.label = u.label := by
    intro u hu
    generalize hes : ([] : List Tree) = es at hu
    cases hu with
    | rewrite ht hts => exact absurd (List.append_eq_nil_iff.1 hes.symm).1 ht.ne_nil
    | inner => rfl
  cases h with
  | kept hset hd => exact hkeep hd
  | declared hl hv hty hgs hfree hd => rw [hkeep hd, Tree.label_declareSlot]

end DeclWalked

end ContractTree
