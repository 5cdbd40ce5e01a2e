import ContractTree.Proofs.Completeness

/-!
The statistics of the pass are exact. What the pass counts can be read off the tree before the run (`Tree.charge`):
every reference to storage is counted once, as a read or as the target of an assignment (`Walkable.refs_eq`), and
what is counted is what the tree gains in reads and writes of slots and in functions (`Rooted.tally`).
-/

namespace ContractTree

open Lowering (Stats)

/-! ## Sorts of nodes -/

/-- What sort of node a label is for. -/
def Label.tag : Label → Tag
  | .module => .module
  | .variableDecl _ _ _ => .variableDecl
  | .functionDef _ _ _ => .functionDef
  | .arg _ => .arg
  | .assign => .assign
  | .augAssign _ => .augAssign
  | .annAssign => .annAssign
  | .ret => .ret
  | .exprStmt => .exprStmt
  | .ifElse => .ifElse
  | .forIn => .forIn
  | .assert => .assert
  | .pass => .pass
  | .storageRead => .storageRead
  | .storageWrite => .storageWrite
  | .name _ => .name
  | .member _ => .member
  | .subscript => .subscript
  | .binOp _ => .binOp
  | .boolOp _ => .boolOp
  | .compare _ => .compare
  | .unaryOp _ => .unaryOp
  | .call => .call
  | .int _ => .int
  | .bool _ => .bool
  | .str _ => .str

theorem Kind.tag_label (k : Kind) : k.label.tag = k.tag := by cases k <;> rfl

namespace Tag

/-- Whether the pass makes and takes away nodes of a sort only as its statistics say. -/
def counted : Tag → Bool
  | .arg | .assign | .augAssign | .name | .subscript | .binOp | .int | .bool | .str => false
  | _ => true

/-- How many nodes of a sort the pass makes, by its statistics. -/
def made (st : Stats) : Tag → Nat
  | .storageRead => st.reads + st.augWrites + st.getters
  | .storageWrite => st.writes + st.augWrites
  | .functionDef | .ret => st.getters
  | _ => 0

/-- How many nodes of a sort the pass takes away, by its statistics. -/
def taken (st : Stats) : Tag → Nat
  | .member => st.reads + st.writes + st.augWrites
  | _ => 0

@[simp] theorem made_zero (τ : Tag) : τ.made {} = 0 := by cases τ <;> rfl

@[simp] theorem taken_zero (τ : Tag) : τ.taken {} = 0 := by cases τ <;> rfl

theorem made_add (τ : Tag) (a b : Stats) : τ.made (a + b) = τ.made a + τ.made b := by
  cases τ <;> simp only [made, Stats.reads_add, Stats.writes_add, Stats.augWrites_add, Stats.getters_add] <;> omega

theorem taken_add (τ : Tag) (a b : Stats) : τ.taken (a + b) = τ.taken a + τ.taken b := by
  cases τ <;> simp only [taken, Stats.reads_add, Stats.writes_add, Stats.augWrites_add]
  omega

theorem made_reads (τ : Tag) (m n : Nat) :
    τ.made { reads := m + n } = τ.made { reads := m } + τ.made { reads := n } :=
  τ.made_add { reads := m } { reads := n }

theorem taken_reads (τ : Tag) (m n : Nat) :
    τ.taken { reads := m + n } = τ.taken { reads := m } + τ.taken { reads := n } :=
  τ.taken_add { reads := m } { reads := n }

end Tag

namespace Tree

variable {c : Catalog} {ν : NodeId} {τ : Tag} {t u : Tree} {ts : List Tree} {i : NodeId} {ty : Option Ty}
  {l : Label} {hs bs os : List Tree} {v : StorageVar}

/-- How many nodes of a sort the tree has. -/
def tally (τ : Tag) (t : Tree) : Nat := t.count fun u => u.label.tag == τ

/-- How many nodes of a sort the trees have. -/
def tallyAll (τ : Tag) (ts : List Tree) : Nat := countAll (fun u => u.label.tag == τ) ts

@[simp] theorem tallyAll_nil : tallyAll τ [] = 0 := rfl

@[simp] theorem tallyAll_cons : tallyAll τ (t :: ts) = t.tally τ + tallyAll τ ts := rfl

@[simp] theorem tallyAll_append {us : List Tree} : tallyAll τ (ts ++ us) = tallyAll τ ts + tallyAll τ us :=
  countAll_append

theorem tally_eq (τ : Tag) (t : Tree) : t.tally τ = (t.label.tag == τ).toNat + tallyAll τ t.kids := count_eq _ t

/-- A node of a sort that is not counted has what is below it. -/
theorem tally_of_counted (hτ : τ.counted = true) (h : t.label.tag.counted = false) :
    t.tally τ = tallyAll τ t.kids := by
  have hne : t.label.tag ≠ τ := by
    rintro rfl
    rw [h] at hτ
    cases hτ
  simp [tally_eq, hne]

theorem tally_leaf (hτ : τ.counted = true) (h : l.tag.counted = false) : (leaf i ty l).tally τ = 0 :=
  tally_of_counted hτ h

theorem counted_of_isAtom (h : (l.kind [] [] []).isAtom = true) : l.tag.counted = false := by
  cases l <;> first | rfl | cases h

theorem tally_readTree {temp slot : NodeId} {ks : List Tree} (hτ : τ.counted = true) :
    (readTree i temp slot v ty ks).tally τ = τ.made { reads := 1 } + tallyAll τ ks := by
  have h1 : (tempLeaf temp ty).tally τ = 0 := tally_leaf hτ rfl
  have h2 : (slotLeaf slot v).tally τ = 0 := tally_leaf hτ rfl
  rw [tally_eq]
  simp only [readTree, kids_node, List.append_nil, tallyAll_cons, h1, h2, label_node, Nat.zero_add]
  congr 1
  cases τ <;> rfl

theorem tally_writeTree {slot : NodeId} {ks : List Tree} {x : Tree} (hτ : τ.counted = true) :
    (writeTree i slot v ty ks x).tally τ = τ.made { writes := 1 } + (tallyAll τ ks + x.tally τ) := by
  have h1 : (slotLeaf slot v).tally τ = 0 := tally_leaf hτ rfl
  rw [tally_eq]
  simp only [writeTree, kids_node, List.append_nil, tallyAll_cons, tallyAll_append, tallyAll_nil, h1, label_node,
    Nat.zero_add, Nat.add_zero]
  congr 1
  cases τ <;> rfl

theorem tally_assignTree {x y : Tree} (hτ : τ.counted = true) :
    (assignTree i x y).tally τ = x.tally τ + y.tally τ := by
  rw [tally_of_counted hτ rfl]
  simp [assignTree]

/-- What counts in a chain on a member of `self` is that member and what is in its keys. -/
theorem tally_of_reach (hτ : τ.counted = true) (hf : t.Fits) (h : t.reach c = some v) :
    t.tally τ = τ.taken { reads := 1 } + tallyAll τ (t.links.map Link.key) := by
  obtain ⟨i, ty, attr, j, ty', hb, -⟩ := exists_self_of_reach hf h
  have hbase : t.base.tally τ = τ.taken { reads := 1 } := by
    have hself : (leaf j ty' (.name "self")).tally τ = 0 := tally_leaf hτ rfl
    rw [hb, tally_eq]
    simp only [kids_node, List.append_nil, tallyAll_cons, tallyAll_nil, hself]
    cases τ <;> rfl
  have hwrap := count_wrap (p := fun u => u.label.tag == τ) (b := t.base)
    (fun u hu => by rw [hu]; cases τ <;> first | rfl | cases hτ) t.links
  rw [plug_links hf] at hwrap
  rw [tally, hwrap, ← tally, hbase]
  rfl

end Tree

/-! ## What is made of a statement -/

variable {c : Catalog} {ν : NodeId} {τ : Tag}

theorem Hoisted.tally {ts es ts' : List Tree} (h : Hoisted c ν ts es ts') (hτ : τ.counted = true)
    (hf : ∀ t ∈ ts, t.Fits) : Tree.tallyAll τ es + Tree.tallyAll τ ts' + τ.taken { reads := Tree.refsAll c ts } =
      Tree.tallyAll τ ts + τ.made { reads := Tree.refsAll c ts } := by
  induction h with
  | nil => simp [Tree.refsAll]
  | @access t v es ks ts es' ts' i temp slot read hnew ht hk hts ihk ihts =>
    have hft := hf t List.mem_cons_self
    have hr := (Tree.access?_eq_some_iff.1 ht).1
    have ihk := ihk (Tree.fits_key hft)
    have ihts := ihts fun u hu => hf u (List.mem_cons_of_mem _ hu)
    have hrefs : Tree.refsAll c (t :: ts) = 1 + Tree.refsAll c (t.links.map Link.key) + Tree.refsAll c ts := by
      rw [← Tree.refs_of_reach hft hr]
      rfl
    have htemp : (tempRef i temp (some (t.ty.getD v.value))).tally τ = 0 := Tree.tally_leaf hτ rfl
    rw [hrefs, Tag.made_reads, Tag.made_reads, Tag.taken_reads, Tag.taken_reads]
    simp only [Tree.tallyAll_append, Tree.tallyAll_cons, Tree.tally_readTree hτ,
      Tree.tally_of_reach hτ hft hr, htemp]
    omega
  | @inner t t' es ts es' ts' hr ha hk hts ihk ihts =>
    have ihk := ihk fun k hk => (hf t List.mem_cons_self).kid hk
    have ihts := ihts fun u hu => hf u (List.mem_cons_of_mem _ hu)
    have hrefs : Tree.refsAll c (t :: ts) = Tree.refsAll c t.kids + Tree.refsAll c ts := by
      have : t.isRef c = false := by rw [Tree.isRef, hr]; rfl
      rw [Tree.refsAll, Tree.countAll_cons, Tree.count_eq, this, Bool.toNat_false, Nat.zero_add]
      rfl
    rw [hrefs, Tag.made_reads, Tag.taken_reads, Tree.tallyAll_cons, Tree.tallyAll_cons, Tree.tally_eq τ t,
      Tree.tally_eq τ t', ha.label, Tree.tallyAll_append]
    omega

/-- A key that is shared counts in the statement in front or in the read. -/
theorem SharedAll.tally {ν : NodeId} {ks bs rs ws : List Tree} (h : SharedAll ν ks bs rs ws)
    (hτ : τ.counted = true) :
    Tree.tallyAll τ bs + Tree.tallyAll τ rs = Tree.tallyAll τ ks ∧ Tree.tallyAll τ ws = 0 := by
  induction h with
  | nil => exact ⟨rfl, rfl⟩
  | @cons k r w bs ks bs' rs ws h hs ih =>
    have hone : Tree.tallyAll τ bs + r.tally τ = k.tally τ ∧ w.tally τ = 0 := by
      cases h with
      | atom copy hnew h => exact ⟨by simp, Tree.tally_leaf hτ (Tree.counted_of_isAtom h)⟩
      | bound bind temp forRead forWrite hnew h =>
        have htemp : ∀ i : NodeId, (tempRef i temp k.ty).tally τ = 0 := fun _ => Tree.tally_leaf hτ rfl
        have hleaf : (tempLeaf temp k.ty).tally τ = 0 := Tree.tally_leaf hτ rfl
        simp [Tree.tally_assignTree hτ, htemp, hleaf]
    simp only [Tree.tallyAll_append, Tree.tallyAll_cons]
    omega

/-- What a node is rewritten to has what the node had, less and more what the statistics say. -/
theorem Rewritten.tally {t t' : Tree} {es : List Tree} (h : Rewritten c ν t es t') (hτ : τ.counted = true)
    (hf : t.Fits) : Tree.tallyAll τ es + t'.tally τ + τ.taken (t.charge c) = t.tally τ + τ.made (t.charge c) := by
  cases h with
  | read i temp ty ht h =>
    have := h.tally hτ (by simpa using hf)
    simpa [Tree.charge_of_access ht, Tree.refsAll, Tree.refs] using this
  | store h =>
    obtain @⟨_, _, target, value, _, _, _, _, ks, _, _, _, _, _, -, ht, hval, hks⟩ := h
    have hft : target.Fits := hf.kid (by simp)
    have hr := (Tree.access?_eq_some_iff.1 ht).1
    have h1 := hval.tally hτ (by simpa using hf.kid (by simp))
    have h2 := hks.tally hτ (Tree.fits_key hft)
    have hleaf : ∀ {i : NodeId} {ty : Option Ty} {x : String}, (Tree.leaf i ty (.name x)).tally τ = 0 :=
      Tree.tally_leaf hτ rfl
    have htaken : τ.taken { writes := 1 } = τ.taken { reads := 1 } := by cases τ <;> rfl
    rw [Tree.charge_of_target hft (.inl rfl) hr, Tree.tally_of_counted hτ (t := .node ..) rfl, Tag.made_add,
      Tag.made_reads, Tag.taken_add, Tag.taken_reads, Tree.tally_writeTree hτ]
    simp only [Tree.tallyAll_append, Tree.tallyAll_cons, Tree.tallyAll_nil, Tree.tally_assignTree hτ,
      Tree.kids_node, Tree.tally_of_reach hτ hft hr, tempLeaf, tempRef, hleaf, List.append_nil, Tree.refsAll,
      Tree.refs, Tree.countAll_cons, Tree.countAll_nil, Nat.add_zero, if_true, htaken] at h1 h2 ⊢
    omega
  | combine h =>
    obtain @⟨_, _, _, target, value, _, _, _, _, ks, _, _, _, _, _, _, _, _, _, _, _, _, _, -, ht, hval, hks,
      hsh⟩ := h
    have hft : target.Fits := hf.kid (by simp)
    have hr := (Tree.access?_eq_some_iff.1 ht).1
    have h1 := hval.tally hτ (by simpa using hf.kid (by simp))
    have h2 := hks.tally hτ (Tree.fits_key hft)
    have h3 := hsh.tally hτ
    have hleaf : ∀ {i : NodeId} {ty : Option Ty} {x : String}, (Tree.leaf i ty (.name x)).tally τ = 0 :=
      Tree.tally_leaf hτ rfl
    have hbinOp : ∀ {i : NodeId} {ty : Option Ty} {op : BinOp} {x y : Tree},
        (Tree.node i ty (.binOp op) [x, y] [] []).tally τ = x.tally τ + y.tally τ := by
      intro i ty op x y
      rw [Tree.tally_of_counted hτ rfl]
      simp
    have haug : τ.made { augWrites := 1 } = τ.made { reads := 1 } + τ.made { writes := 1 } := by cases τ <;> rfl
    have htaken : τ.taken { augWrites := 1 } = τ.taken { reads := 1 } := by cases τ <;> rfl
    rw [Tree.charge_of_target hft (.inr ⟨_, rfl⟩) hr,
      Tree.tally_of_counted hτ (t := .node _ _ (.augAssign _) ..) rfl, Tag.made_add, Tag.made_reads, Tag.taken_add,
      Tag.taken_reads, Tree.tally_writeTree hτ]
    simp only [Tree.tallyAll_append, Tree.tallyAll_cons, Tree.tallyAll_nil, Tree.tally_assignTree hτ,
      Tree.tally_readTree hτ, hbinOp, Tree.kids_node, Tree.tally_of_reach hτ hft hr, tempLeaf, tempRef, hleaf,
      List.append_nil, Tree.refsAll, Tree.refs, Tree.countAll_cons, Tree.countAll_nil, Nat.add_zero, reduceCtorEq,
      if_false, haug, htaken] at h1 h2 h3 ⊢
    omega

/-! ## What can be walked -/

theorem Rewritten.walkable {t t' : Tree} {es : List Tree} (h : Rewritten c ν t es t') (hf : t.Fits) :
    Walkable c true [t] := by
  cases h with
  | read i temp ty ht h => exact .read ht (h.hoistable.keys hf ht) .nil
  | store h =>
    obtain ⟨_, _, _, _, _, -, ht, hval, hks⟩ := h
    exact .store (.inl rfl) ht hval.hoistable hks.hoistable .nil
  | combine h =>
    obtain ⟨_, _, _, _, _, _, _, _, _, _, -, ht, hval, hks, -⟩ := h
    exact .store (.inr ⟨_, rfl⟩) ht hval.hoistable hks.hoistable .nil

/-- What has been walked could be, without a site if nothing was put in front. -/
theorem Walked.walkable {inList : Bool} {ts es ts' : List Tree} (h : Walked c ν inList ts es ts')
    (hf : ∀ t ∈ ts, t.Fits) : Walkable c true ts ∧ (inList = false → es = [] → Walkable c false ts) := by
  induction h with
  | nil => exact ⟨.nil, fun _ _ => .nil⟩
  | @rewrite t t' es ts es' ts' ht hts ih =>
    have ih := ih fun u hu => hf u (List.mem_cons_of_mem _ hu)
    refine ⟨Walkable.cons_iff.2 ⟨ht.walkable (hf t List.mem_cons_self), ih.1⟩, fun _ hes => ?_⟩
    exact absurd (List.append_eq_nil_iff.1 hes).1 ht.ne_nil
  | @inner i ty l hs bs os es hs' bs' os' ts es' ts' hr ht hh hb ho hts ihh ihb iho ihts =>
    obtain ⟨hfh, hfb, hfo⟩ := (hf _ List.mem_cons_self).lists
    have ihh := ihh hfh
    have ihb := (ihb hfb).1
    have iho := (iho hfo).1
    have ihts := ihts fun u hu => hf u (List.mem_cons_of_mem _ hu)
    refine ⟨.inner hr ht ihh.1 ihb iho ihts.1, fun _ hes => ?_⟩
    obtain ⟨h1, h2⟩ := List.append_eq_nil_iff.1 hes
    exact .inner hr ht (ihh.2 rfl h1) ihb iho (ihts.2 rfl h2)
  | @stmt t t' es ts ts' ht hts iht ihts =>
    have iht := iht (by simpa using hf t List.mem_cons_self)
    have ihts := ihts fun u hu => hf u (List.mem_cons_of_mem _ hu)
    exact ⟨Walkable.cons_iff.2 ⟨iht.1, ihts.1⟩, fun h => by cases h⟩

/-- What is not lowered as a whole is counted part by part. -/
theorem Walkable.charge_inner {sited : Bool} {i : NodeId} {ty : Option Ty} {l : Label} {hs bs os : List Tree}
    (hf : (Tree.node i ty l hs bs os).Fits) (hr : (Tree.node i ty l hs bs os).receiver? c = none)
    (ht : l = .assign ∨ (∃ op, l = .augAssign op) → ∀ target ∈ hs.head?, target.reach c = none)
    (hh : Walkable c sited hs) : (Tree.node i ty l hs bs os).charge c = Tree.chargeAll c (hs ++ bs ++ os) := by
  rw [Tree.charge_eq, Tree.cost?_eq_none (access?_eq_none hf hr hh) ht]
  rfl

/-- **Every reference is counted once,** as a read or as the target of an assignment. -/
theorem Walkable.refs_eq {sited : Bool} {ts : List Tree} (h : Walkable c sited ts) (hf : ∀ t ∈ ts, t.Fits) :
    Tree.refsAll c ts =
      (Tree.chargeAll c ts).reads + (Tree.chargeAll c ts).writes + (Tree.chargeAll c ts).augWrites := by
  induction h with
  | nil => rfl
  | @read t v ts ht hk hts ih =>
    have ih := ih fun u hu => hf u (List.mem_cons_of_mem _ hu)
    rw [Tree.chargeAll_cons, Tree.charge_of_access ht]
    simp only [Tree.refsAll, Tree.countAll_cons, Stats.reads_add, Stats.writes_add, Stats.augWrites_add,
      Tree.refs] at ih ⊢
    omega
  | @store i ty l target value v ts hl ht hval hk hts ih =>
    have ih := ih fun u hu => hf u (List.mem_cons_of_mem _ hu)
    have hft : target.Fits := (hf _ List.mem_cons_self).kid (by simp)
    have hr := (Tree.access?_eq_some_iff.1 ht).1
    have hself : (Tree.node i ty l [target, value] [] []).isRef c = false :=
      Tree.isRef_of_label (by rcases hl with rfl | ⟨op, rfl⟩ <;> simp)
    have hrefs := Tree.refs_of_reach hft hr
    rw [Tree.chargeAll_cons, Tree.charge_of_target hft hl hr, Tree.refsAll, Tree.countAll_cons,
      Tree.count_eq, hself]
    simp only [Tree.refsAll, Tree.kids_node, Tree.countAll_cons, Tree.countAll_nil, List.append_nil,
      Stats.reads_add, Stats.writes_add, Stats.augWrites_add, Tree.refs, Bool.toNat_false] at ih hrefs ⊢
    split <;> simp only <;> omega
  | @inner sited i ty l hs bs os ts hr ht hh hb ho hts ihh ihb iho ihts =>
    have hft := hf _ List.mem_cons_self
    obtain ⟨hfh, hfb, hfo⟩ := hft.lists
    have ihh := ihh hfh
    have ihb := ihb hfb
    have iho := iho hfo
    have ihts := ihts fun u hu => hf u (List.mem_cons_of_mem _ hu)
    have hself : (Tree.node i ty l hs bs os).isRef c = false := by rw [Tree.isRef, hr]; rfl
    rw [Tree.chargeAll_cons, charge_inner hft hr ht hh, Tree.refsAll, Tree.countAll_cons, Tree.count_eq, hself]
    simp only [Tree.refsAll, Tree.kids_node, Tree.countAll_append, Tree.chargeAll_append, Stats.reads_add,
      Stats.writes_add, Stats.augWrites_add, Bool.toNat_false] at ihh ihb iho ihts ⊢
    omega

/-- **A walk makes what the statistics say.** -/
theorem Walked.tally {inList : Bool} {ts es ts' : List Tree} (h : Walked c ν inList ts es ts')
    (hτ : τ.counted = true) (hf : ∀ t ∈ ts, t.Fits) :
    Tree.tallyAll τ es + Tree.tallyAll τ ts' + τ.taken (Tree.chargeAll c ts) =
      Tree.tallyAll τ ts + τ.made (Tree.chargeAll c ts) := by
  induction h with
  | nil => simp
  | @rewrite t t' es ts es' ts' ht hts ih =>
    have ih := ih fun u hu => hf u (List.mem_cons_of_mem _ hu)
    have ht := ht.tally hτ (hf t List.mem_cons_self)
    simp only [Tree.tallyAll_append, Tree.tallyAll_cons, Tree.chargeAll_cons, Tag.made_add, Tag.taken_add]
    omega
  | @inner i ty l hs bs os es hs' bs' os' ts es' ts' hr ht hh hb ho hts ihh ihb iho ihts =>
    have hft := hf _ List.mem_cons_self
    obtain ⟨hfh, hfb, hfo⟩ := hft.lists
    have ihh := ihh hfh
    have ihb := ihb hfb
    have iho := iho hfo
    have ihts := ihts fun u hu => hf u (List.mem_cons_of_mem _ hu)
    have hwalk := (hh.walkable hfh).1
    simp only [Tree.tallyAll_append, Tree.tallyAll_cons, Tree.chargeAll_cons,
      Walkable.charge_inner hft hr ht hwalk, Tree.chargeAll_append, Tag.made_add, Tag.taken_add,
      Tree.tally_eq τ (.node ..), Tree.kids_node, Tree.label_node, Tree.tallyAll_nil] at ihb iho ⊢
    omega
  | @stmt t t' es ts ts' ht hts iht ihts =>
    have iht := iht (by simpa using hf t List.mem_cons_self)
    have ihts := ihts fun u hu => hf u (List.mem_cons_of_mem _ hu)
    simp only [Tree.tallyAll_append, Tree.tallyAll_cons, Tree.tallyAll_nil, Tree.chargeAll_cons,
      Tree.chargeAll_nil, Tag.made_add, Tag.made_zero, Tag.taken_add, Tag.taken_zero] at iht ihts ⊢
    omega

/-! ## The body of the module -/

theorem GetterKeys.tally {n : Nat} {tys : List Ty} {as rs : List Tree} (h : GetterKeys n tys as rs)
    (hτ : τ.counted = true) : Tree.tallyAll τ as = 0 ∧ Tree.tallyAll τ rs = 0 := by
  induction h with
  | nil => exact ⟨rfl, rfl⟩
  | cons i j h ih =>
    rw [Tree.tallyAll_cons, Tree.tallyAll_cons, Tree.tally_leaf hτ rfl, Tree.tally_leaf hτ rfl, ih.1, ih.2]
    exact ⟨rfl, rfl⟩

/-- A getter is a function with one read. -/
theorem Getter.tally {v : StorageVar} {g : Tree} (h : Getter v g) (hτ : τ.counted = true) :
    g.tally τ = τ.made { getters := 1 } := by
  obtain ⟨i, read, temp, slot, result, reference, hkeys⟩ := h
  obtain ⟨has, hrs⟩ := hkeys.tally hτ
  have htemp : (tempRef reference temp (some v.value)).tally τ = 0 := Tree.tally_leaf hτ rfl
  rw [Tree.tally_eq]
  simp only [Tree.label_node, Tree.kids_node, List.append_nil, Tree.tallyAll_append, Tree.tallyAll_cons,
    Tree.tallyAll_nil, has, Tree.tally_readTree hτ, hrs, Tree.tally_eq τ (.node result ..), htemp, Nat.zero_add,
    Nat.add_zero]
  cases τ <;> rfl

theorem Tree.tally_declareSlot {d : Tree} {v : StorageVar} : (d.declareSlot v).tally τ = d.tally τ := by
  have hty : ∀ {t : Tree} {ty : Option Ty}, (t.withTy ty).tally τ = t.tally τ := by
    intro t ty
    rw [tally_eq, tally_eq, label_withTy, kids_withTy]
  obtain ⟨i, ty, l, hs, bs, os⟩ := d
  cases hs with
  | nil => rfl
  | cons x hs => simp [declareSlot, tally_eq τ (.node ..), hty]

theorem Tree.fits_leaf {i : NodeId} {ty : Option Ty} {l : Label} (h : l.Fits 0 0 0) : (leaf i ty l).Fits :=
  (fits_iff _).2 ⟨h, by simp [leaf]⟩

theorem GetterKeys.fits {n : Nat} {tys : List Ty} {as rs : List Tree} (h : GetterKeys n tys as rs) :
    (∀ a ∈ as, a.Fits) ∧ ∀ r ∈ rs, r.Fits := by
  induction h with
  | nil => simp
  | cons i j h ih =>
    exact ⟨List.forall_mem_cons.2 ⟨Tree.fits_leaf ⟨rfl, rfl, rfl⟩, ih.1⟩,
      List.forall_mem_cons.2 ⟨Tree.fits_leaf ⟨rfl, rfl, rfl⟩, ih.2⟩⟩

theorem Getter.fits {v : StorageVar} {g : Tree} (h : Getter v g) : g.Fits := by
  obtain ⟨i, read, temp, slot, result, reference, hkeys⟩ := h
  obtain ⟨has, hrs⟩ := hkeys.fits
  have hname : ∀ {i : NodeId} {ty : Option Ty} {x : String}, (Tree.leaf i ty (.name x)).Fits :=
    Tree.fits_leaf ⟨rfl, rfl, rfl⟩
  have hread : (readTree read temp slot v (some v.value) _).Fits :=
    (Tree.fits_iff _).2 ⟨⟨by simp [readTree], rfl, rfl⟩, by simpa [readTree] using ⟨hname, hname, hrs⟩⟩
  have hret : (Tree.node result none .ret [tempRef reference temp (some v.value)] [] []).Fits :=
    (Tree.fits_iff _).2 ⟨⟨Nat.le_refl 1, rfl, rfl⟩, by simpa [tempRef] using hname⟩
  refine (Tree.fits_iff _).2 ⟨rfl, fun k hk => ?_⟩
  simp only [Tree.kids_node, List.append_nil, List.mem_append, List.mem_cons, List.not_mem_nil, or_false] at hk
  rcases hk with hk | rfl | rfl
  · exact has k hk
  · exact hread
  · exact hret

theorem DeclWalked.tally {names : List String} {d d' : Tree} {gs : List Tree} (h : DeclWalked c ν names d gs d')
    (hτ : τ.counted = true) (hf : d.Fits) :
    d'.tally τ + τ.taken (d.charge c) = d.tally τ + τ.made (d.charge c) := by
  cases h with
  | kept hset hd => simpa using hd.tally hτ (by simpa using hf)
  | @declared _ _ v hl hv hty hgs hfree hd =>
    have hcharge : Tree.chargeAll c [d.declareSlot v] = Tree.chargeAll c [d] :=
      congrArg Todo.stats (@Todo.trees_declareSlot c true true d v hf hl)
    have := hd.tally hτ (by simpa using hf.declareSlot)
    rw [hcharge] at this
    simpa [Tree.tally_declareSlot] using this

theorem DeclWalked.walkable {names : List String} {d d' : Tree} {gs : List Tree} (h : DeclWalked c ν names d gs d')
    (hf : d.Fits) : Walkable c false [d] := by
  cases h with
  | kept hset hd => exact (hd.walkable (by simpa using hf)).2 rfl rfl
  | @declared _ _ v hl hv hty hgs hfree hd =>
    have hwalk := (hd.walkable (by simpa using hf.declareSlot)).2 rfl rfl
    have hable : Walkable c false [d.declareSlot v] = Walkable c false [d] :=
      congrArg Todo.able (@Todo.trees_declareSlot c true false d v hf hl)
    exact hable ▸ hwalk

namespace Rooted

variable {names : List String} {ds ds' : List Tree}

theorem walkable (h : Rooted c ν names ds ds') (hf : ∀ d ∈ ds, d.Fits) : Walkable c false ds := by
  induction h with
  | nil => exact .nil
  | @cons names d d' gs ds ds' hd hds ih =>
    have hgs : ∀ g ∈ gs, g.Fits := fun g hg => (hd.getter_mem g hg).elim fun v hv => hv.2.fits
    have ih := ih (List.forall_mem_append.2 ⟨fun e he => hf e (List.mem_cons_of_mem _ he), hgs⟩)
    refine Walkable.cons_iff.2 ⟨hd.walkable (hf d List.mem_cons_self), Walkable.iff_forall.2 fun e he => ?_⟩
    exact Walkable.iff_forall.1 ih e (List.mem_append_left _ he)

/-- **The pass makes what its statistics say.** -/
theorem tally (h : Rooted c ν names ds ds') (hτ : τ.counted = true) (hf : ∀ d ∈ ds, d.Fits) :
    Tree.tallyAll τ ds' + τ.taken (Todo.root c names ds).stats =
      Tree.tallyAll τ ds + τ.made (Todo.root c names ds).stats := by
  induction h with
  | nil => simp [Todo.root, Tree.getterNames]
  | @cons names d d' gs ds ds' hd hds ih =>
    have hgs : ∀ g ∈ gs, g.Fits := fun g hg => (hd.getter_mem g hg).elim fun v hv => hv.2.fits
    have ih := ih (List.forall_mem_append.2 ⟨fun e he => hf e (List.mem_cons_of_mem _ he), hgs⟩)
    have hd' := hd.tally hτ (hf d List.mem_cons_self)
    have hgetters : Tree.tallyAll τ gs = τ.made { getters := (d.getterVar? c).toList.length } := by
      rcases hd.getters with ⟨hnone, rfl⟩ | ⟨v, g, hsome, rfl, hg, -⟩
      · simp [hnone]
      · simp [hsome, hg.tally hτ]
    have htaken : τ.taken { getters := (d.getterVar? c).toList.length } = 0 := by cases τ <;> rfl
    rw [Todo.root_cons hd]
    simp only [Todo.and, Todo.decl, Tag.made_add, Tag.taken_add, htaken, Tree.tallyAll_cons,
      Tree.tallyAll_append] at ih ⊢
    omega

end Rooted

/-! ## The nodes below the module -/

namespace Store

variable {s : Store} {p : Option NodeId} {t : Tree}

/-- Whether the node is a member of `self` that the catalog lists. -/
def isReference (s : Store) (c : Catalog) (n : Node) : Bool :=
  match n.kind with
  | .member value attr => (s.kind? value).any (·.isName "self") && (c.find? attr).isSome
  | _ => false

/-- What can be told from a tree is counted in its nodes. -/
theorem Holds.countP_nodes {f : Node → Bool} {g : Tree → Bool} (h : s.Holds p t) (hf : t.Fits)
    (hfg : ∀ {q : Option NodeId} {u : Tree}, s.Holds q u → u.Fits → f (u.root q) = g u) :
    (t.nodes p).countP f = t.count g := by
  induction t generalizing p with
  | step t ih =>
    have hkids : ∀ ks : List Tree, (∀ k ∈ ks, k ∈ t.kids) →
        (ks.flatMap (Tree.nodes (some t.id))).countP f = Tree.countAll g ks := by
      intro ks hks
      induction ks with
      | nil => rfl
      | cons k ks ihk =>
        have hk := hks k List.mem_cons_self
        rw [List.flatMap_cons, List.countP_append, Tree.countAll_cons, ih k hk (h.kid hk) (hf.kid hk),
          ihk fun j hj => hks j (List.mem_cons_of_mem _ hj)]
    rw [Tree.nodes_eq, List.countP_cons, Tree.count_eq, hkids _ fun _ hk => hk, hfg h hf]
    cases g t <;> simp [Nat.add_comm]

theorem Holds.isReference (h : s.Holds p t) (hf : t.Fits) : s.isReference c (t.root p) = t.isRef c := by
  rcases hf.member_cases with ⟨i, ty, attr, v, rfl⟩ | hl
  · have hv := h.kid (k := v) (by simp)
    have hfv := hf.kid (k := v) (by simp)
    show ((s.kind? v.id).any (·.isName "self") && (c.find? attr).isSome) = _
    rw [hv.kind?, Tree.isRef, Tree.receiver?, Option.any_some]
    by_cases hself : v.label = .name "self"
    · rw [(isName_kind hfv "self").2 hself, if_pos hself, Bool.true_and]
    · rw [Bool.eq_false_iff.2 fun h => hself ((isName_kind hfv "self").1 h), if_neg hself]
      rfl
  · rw [Tree.isRef_of_label hl, Store.isReference]
    split
    · next v attr hk =>
      have hlabel := hf.label_kind
      rw [show t.kind = .member v attr from hk] at hlabel
      exact absurd hlabel.symm (hl attr)
    · rfl

theorem Holds.countP_tag (h : s.Holds p t) (hf : t.Fits) (τ : Tag) :
    (t.nodes p).countP (·.tag = τ) = t.tally τ := by
  refine h.countP_nodes hf fun {q u} hu hfu => ?_
  show decide (u.kind.tag = τ) = (u.label.tag == τ)
  rw [← Kind.tag_label, hfu.label_kind]
  rfl

end Store

namespace Lowering

variable {w w' : Workspace Progress} {m : NodeId}

/-- **No access is lost or duplicated.** In a tree whose only module is `m`, if the pass comes to its end, then its
statistics count every reference to a state variable of `m` once, as a read, a write or an augmented write; the
reads of slots grow by the reads, the augmented writes and the getters, the writes of slots by the writes and the
augmented writes, and the functions by the getters. -/
theorem run_accounts (hs : w.store.Sound) (hv : w.store.verify m = .ok ())
    (honly : ∀ n ∈ w.store.preorder m, n.kind.isModule = true → n.id = m) (hrun : run m w = .ok () w') :
    (w.store.preorder m).countP (w.store.isReference (w.store.stateVars m)) =
        w'.own.stats.reads + w'.own.stats.writes + w'.own.stats.augWrites ∧
      (w'.store.preorder m).countP (·.tag = .storageRead) = (w.store.preorder m).countP (·.tag = .storageRead) +
        (w'.own.stats.reads + w'.own.stats.augWrites + w'.own.stats.getters) ∧
      (w'.store.preorder m).countP (·.tag = .storageWrite) = (w.store.preorder m).countP (·.tag = .storageWrite) +
        (w'.own.stats.writes + w'.own.stats.augWrites) ∧
      (w'.store.preorder m).countP (·.tag = .functionDef) = (w.store.preorder m).countP (·.tag = .functionDef) +
        w'.own.stats.getters := by
  obtain ⟨T, rfl, hf, hn, hT⟩ := (Store.verify_iff hs.nodup m).1 hv
  obtain ⟨ty, body, body', hbody, h⟩ := exists_ran hs hf hn hT (hT.no_module hf hn honly) hrun
  have hfit : ∀ d ∈ body, d.Fits := fun d hd => hf.kid (by rw [hbody]; simpa using hd)
  have hT' := h.has.holds
  have hf' := h.has.fits
  have hpre := hT.preorder_eq hf hn
  have hpre' : w'.store.preorder T.id = _ := hT'.preorder_eq hf' h.has.nodup
  have htag : ∀ τ : Tag, τ.counted = true → (w'.store.preorder T.id).countP (·.tag = τ) + τ.taken w'.own.stats =
      (w.store.preorder T.id).countP (·.tag = τ) + τ.made w'.own.stats := by
    intro τ hτ
    have hbefore : T.tally τ = (Tag.module == τ).toNat + Tree.tallyAll τ body := by
      rw [hbody, Tree.tally_eq]
      simp [Label.tag]
    have hafter : (Tree.node T.id ty .module [] body' []).tally τ = (Tag.module == τ).toNat +
        Tree.tallyAll τ body' := by
      rw [Tree.tally_eq]
      simp [Label.tag]
    have htally : _ + τ.taken (bodyTodo body).stats = _ + τ.made (bodyTodo body).stats := h.rooted.tally hτ hfit
    have hstats : w'.own.stats = (bodyTodo body).stats := by rw [h.has.own]
    rw [hpre, hpre', hT.countP_tag hf, hT'.countP_tag hf', hbefore, hafter, hstats]
    omega
  refine ⟨?_, htag .storageRead rfl, htag .storageWrite rfl, htag .functionDef rfl⟩
  have hrefs : T.count (Tree.isRef (Tree.catalogOf body)) = Tree.refsAll (Tree.catalogOf body) body := by
    rw [hbody, Tree.count_eq]
    simp [Tree.isRef, Tree.receiver?, Tree.refsAll]
  have hvars : w.store.stateVars T.id = Tree.catalogOf body := by
    rw [hT.stateVars_eq hf hn, congrArg Tree.body hbody, Tree.body_node]
  rw [hpre, hT.countP_nodes hf fun hu hfu => hu.isReference hfu, hvars, hrefs,
    (h.rooted.walkable hfit).refs_eq hfit, h.has.own]
  rfl

theorem run_accounts_ledger : ∃ w', run ⟨0⟩ ⟨ledger, {}⟩ = .ok () w' ∧
    w'.own.stats = { reads := 2, augWrites := 1, getters := 1 } ∧
    (ledger.preorder ⟨0⟩).countP (ledger.isReference (ledger.stateVars ⟨0⟩)) = 3 ∧
    (w'.store.preorder ⟨0⟩).countP (·.tag = .storageRead) = 4 ∧
    (w'.store.preorder ⟨0⟩).countP (·.tag = .storageWrite) = 1 ∧
    (w'.store.preorder ⟨0⟩).countP (·.tag = .functionDef) = 2 := by
  have hrun : ∃ w', run ⟨0⟩ ⟨ledger, {}⟩ = .ok () w' ∧
      w'.own.stats = { reads := 2, augWrites := 1, getters := 1 } := by
    decide +kernel
  obtain ⟨w', hw', hstats⟩ := hrun
  have h := run_accounts sound_ledger verify_ledger only_module_ledger hw'
  have hbefore : (ledger.preorder ⟨0⟩).countP (·.tag = .storageRead) = 0 ∧
      (ledger.preorder ⟨0⟩).countP (·.tag = .storageWrite) = 0 ∧
      (ledger.preorder ⟨0⟩).countP (·.tag = .functionDef) = 1 := by decide
  simp only [hstats, hbefore] at h
  exact ⟨w', hw', hstats, h⟩

end Lowering

end ContractTree
