import ContractTree.Proofs.Walk

/-!
The pass lowers every access. When it has come to its end in a tree with one module, no node of the tree is a
member of `self` that the catalog lists, and every read or write of a slot that it added names the slot of a
variable of the catalog and has as many keys as the slot (`Lowering.run_complete`). The first is read off what the
walk leaves; the second is a property that every node has which lowering makes (`slotted`).
-/

namespace ContractTree

/-- A read or write of a slot names the slot of a variable of the catalog and has all its keys. -/
structure Slotted (c : Catalog) (u : Tree) : Prop where
  read : u.label = .storageRead →
    ∃ v ∈ c, ∃ temp slot ks, u.heads = temp :: slotLeaf slot v :: ks ∧ ks.length = v.depth
  write : u.label = .storageWrite →
    ∃ v ∈ c, ∃ slot ks x, u.heads = slotLeaf slot v :: (ks ++ [x]) ∧ ks.length = v.depth

theorem Slotted.of_label {c : Catalog} {u : Tree} (hr : u.label ≠ .storageRead) (hw : u.label ≠ .storageWrite) :
    Slotted c u := ⟨fun h => absurd h hr, fun h => absurd h hw⟩

/-- What lowering makes of trees with old identities is old, or has all keys of a slot of the catalog. -/
theorem carries_slotted {c : Catalog} {old : List NodeId} :
    Carries c (fun u => u.id ∈ old) fun u => u.id ∈ old ∨ Slotted c u where
  keep _ h := .inl h
  atom {i ty l} h := .inr (.of_label (by rintro rfl; cases h) (by rintro rfl; cases h))
  read hv hk := .inr ⟨fun _ => ⟨_, hv, _, _, _, rfl, hk⟩, by simp [readTree]⟩
  write hv hk := .inr ⟨by simp [writeTree], fun _ => ⟨_, hv, _, _, _, rfl, hk⟩⟩
  assign := .inr (.of_label (by simp [assignTree]) (by simp [assignTree]))
  binOp := .inr (.of_label (by simp) (by simp))

theorem Getter.slotted {v : StorageVar} {g : Tree} {c : Catalog} (h : Getter v g) (hv : v ∈ c) :
    g.All (Slotted c) := by
  refine h.all ⟨?_, ?_⟩ (fun hk => ⟨fun _ => ⟨_, hv, _, _, _, rfl, hk⟩, by simp [readTree]⟩) ?_ ?_ <;>
    exact .of_label (by simp [Tree.leaf]) (by simp [Tree.leaf])

namespace DeclWalked

variable {c : Catalog} {ν : NodeId} {names : List String} {d d' : Tree} {gs : List Tree} {old : List NodeId}

theorem clean (h : DeclWalked c ν names d gs d') : d'.Clean c := by
  cases h with
  | kept hset hd => exact hd.clean.1 _ List.mem_cons_self
  | declared hl hv hty hgs hfree hd => exact hd.clean.1 _ List.mem_cons_self

/-- What the walk adds to a declaration with old identities names slots of the catalog. A getter does so already,
and is left alone. -/
theorem slotted (h : DeclWalked c ν names d gs d') (hd : d.ids ⊆ old ∨ ∃ v ∈ c, Getter v d) :
    d'.All fun u => u.id ∈ old ∨ Slotted c u := by
  have hold : ∀ {u : Tree}, Walked c ν false [u] [] [d'] → u.ids ⊆ old → d'.All fun u => u.id ∈ old ∨
      Slotted c u :=
    fun hw hu => (carries_slotted.walked hw (by simpa [Tree.all_id_iff] using hu)).1 d' List.mem_cons_self
  cases h with
  | kept hset hw =>
    rcases hd with hu | ⟨v, hv, hg⟩
    · exact hold hw hu
    · obtain ⟨-, heq⟩ := hw.eq_of_clean (by simpa using hg.clean)
      obtain rfl := (List.cons.inj heq).1
      exact (hg.slotted hv).mono fun u hu => .inr hu
  | declared hl hv hty hgs hfree hw =>
    rcases hd with hu | ⟨v', -, hg⟩
    · exact hold hw (by rwa [Tree.ids_declareSlot])
    · obtain ⟨a, b, e, hl⟩ := hl
      cases hg
      cases hl

theorem getter_mem (h : DeclWalked c ν names d gs d') : ∀ g ∈ gs, ∃ v ∈ c, Getter v g := by
  cases h with
  | kept => simp
  | declared hl hv hty hgs hfree hw =>
    have hmem := List.mem_of_find?_eq_some hv
    cases hgs with
    | none => simp
    | one _ hg => simpa using ⟨_, hmem, hg⟩

end DeclWalked

namespace Rooted

variable {c : Catalog} {ν : NodeId} {names : List String} {ds ds' : List Tree} {old : List NodeId}

theorem clean (h : Rooted c ν names ds ds') : ∀ d ∈ ds', d.Clean c := by
  induction h with
  | nil => simp
  | cons hd hds ih => exact List.forall_mem_cons.2 ⟨hd.clean, ih⟩

/-- What the walk adds to declarations with old identities names slots of the catalog. -/
theorem slotted (h : Rooted c ν names ds ds') (hds : ∀ d ∈ ds, d.ids ⊆ old ∨ ∃ v ∈ c, Getter v d) :
    ∀ d ∈ ds', d.All fun u => u.id ∈ old ∨ Slotted c u := by
  induction h with
  | nil => simp
  | cons hd hds' ih =>
    refine List.forall_mem_cons.2 ⟨hd.slotted (hds _ List.mem_cons_self), ih fun e he => ?_⟩
    rcases List.mem_append.1 he with he | he
    · exact hds e (List.mem_cons_of_mem _ he)
    · exact .inr (hd.getter_mem e he)

end Rooted

/-! ## The store after the pass -/

namespace Store

variable {s : Store} {T : Tree} {m : NodeId} {n : Node}

/-- If `m` is the only module below `m`, there is none inside its tree. -/
theorem Holds.no_module (h : s.Holds none T) (hf : T.Fits) (hn : T.ids.Nodup)
    (honly : ∀ n ∈ s.preorder T.id, n.kind.isModule = true → n.id = T.id) :
    ∀ k ∈ T.kids, k.All fun u => u.label ≠ .module := by
  have hall : ∀ (u : Tree) (p : Option NodeId), u.Fits → T.id ∉ u.ids →
      (∀ n ∈ u.nodes p, n.kind.isModule = true → n.id = T.id) → u.All fun u => u.label ≠ .module := by
    intro u
    induction u with
    | step u ih =>
      intro p hfu hid hu
      refine Tree.all_iff.2 ⟨fun hl => ?_, fun k hk => ?_⟩
      · have := hu (u.root p) (by rw [Tree.nodes_eq]; exact List.mem_cons_self) (hfu.isModule_kind.2 hl)
        exact hid (this ▸ u.id_mem_ids)
      · refine ih k hk (some u.id) (hfu.kid hk) (fun hi => hid (Tree.ids_subset_of_mem_kids hk hi))
          fun n hn => hu n ?_
        rw [Tree.nodes_eq]
        exact List.mem_cons_of_mem _ (List.mem_flatMap.2 ⟨k, hk, hn⟩)
  intro k hk
  rw [h.preorder_eq hf hn, Tree.nodes_eq] at honly
  rw [Tree.ids_eq, List.nodup_cons] at hn
  refine hall k (some T.id) (hf.kid hk) (fun hi => hn.1 (List.mem_flatMap.2 ⟨k, hk, hi⟩)) fun n hn' => honly n ?_
  exact List.mem_cons_of_mem _ (List.mem_flatMap.2 ⟨k, hk, hn'⟩)

end Store

/-- A member of `self` in a tree that does not refer to storage is none that the catalog lists. -/
theorem find?_eq_none_of_clean {s : Store} {c : Catalog} {u : Tree} {p : Option NodeId} {value : NodeId}
    {attr : String} (hc : u.Clean c) (h : s.Holds p u) (hf : u.Fits) (hk : u.kind = .member value attr)
    (hself : (s.kind? value).any (·.isName "self") = true) : c.find? attr = none := by
  have hl : u.label = .member attr := by rw [← hf.label_kind, hk]; rfl
  rcases hf.member_cases with ⟨i, ty, attr', x, rfl⟩ | hne
  · obtain rfl : attr' = attr := by simpa using hl
    obtain rfl : x.id = value := by simpa [Tree.kind, Label.kind] using hk
    have hx := h.kid (k := x) (by simp)
    have hfx : x.Fits := hf.kid (by simp)
    rw [hx.kind?, Option.any_some, Store.isName_kind hfx] at hself
    have := hc.top
    rwa [Tree.receiver?, if_pos hself] at this
  · exact absurd hl (hne attr)

/-- A read or write of a slot, as its tree says. -/
theorem exists_slot_of_slotted {s : Store} {c : Catalog} {u : Tree} {p : Option NodeId} {slot : NodeId}
    {keys : List NodeId} (hc : Slotted c u) (h : s.Holds p u) (hf : u.Fits)
    (hk : (∃ target, u.kind = .storageRead target slot keys) ∨ ∃ value, u.kind = .storageWrite slot keys value) :
    ∃ v ∈ c, ∃ tys value, v.slotTy = .storage tys value ∧ keys.length = tys.length ∧
      s.kind? slot = some (.name (v.name ++ "_STORAGE")) ∧ s.ty? slot = some v.slotTy := by
  have hlk := hf.label_kind
  have hleaf : ∀ {v : StorageVar}, slotLeaf slot v ∈ u.kids →
      s.kind? slot = some (.name (v.name ++ "_STORAGE")) ∧ s.ty? slot = some v.slotTy :=
    fun hmem => ⟨(h.kid hmem).kind?, (h.kid hmem).ty?⟩
  rcases hk with ⟨target, hk⟩ | ⟨value, hk⟩
  · have hl : u.label = .storageRead := by rw [← hlk, hk]; rfl
    obtain ⟨v, hv, temp, slot', ks, hheads, hlen⟩ := hc.read hl
    rw [Tree.kind, hl, hheads] at hk
    obtain ⟨-, rfl, rfl⟩ := Kind.storageRead.inj hk
    refine ⟨v, hv, v.keys, v.value, rfl, by rw [List.length_map, hlen]; rfl, hleaf ?_⟩
    simp only [Tree.kids, hheads, List.mem_append]
    exact .inl (.inl (by simp [slotLeaf, Tree.leaf]))
  · have hl : u.label = .storageWrite := by rw [← hlk, hk]; rfl
    obtain ⟨v, hv, slot', ks, x, hheads, hlen⟩ := hc.write hl
    rw [Tree.kind, hl, hheads] at hk
    obtain ⟨rfl, rfl, -⟩ := Kind.storageWrite.inj hk
    refine ⟨v, hv, v.keys, v.value, rfl, ?_, hleaf ?_⟩
    · rw [List.map_append, List.map_singleton, List.dropLast_concat, List.length_map, hlen]
      rfl
    · simp only [Tree.kids, hheads, List.mem_append]
      exact .inl (.inl (by simp [slotLeaf, Tree.leaf]))

namespace Store

/-- The state variables that a module declares. -/
def stateVars (s : Store) (m : NodeId) : Catalog := (s.tree? m).elim [] fun t => Tree.catalogOf t.body

theorem Holds.stateVars_eq {s : Store} {p : Option NodeId} {t : Tree} (h : s.Holds p t) (hf : t.Fits)
    (hn : t.ids.Nodup) : s.stateVars t.id = Tree.catalogOf t.body := by
  rw [stateVars, h.tree?_eq hf hn]
  rfl

end Store

namespace Lowering

variable {w w' : Workspace Progress} {m : NodeId}

/-- **The pass is complete.** In a tree whose only module is `m`, after the pass has run, no node below `m` is a
member of `self` that names a state variable of `m`; and each read or write of a slot that the pass has added names
the slot of a state variable of `m`, with the type of that slot, and has as many keys as that type lists. -/
theorem run_complete (hs : w.store.Sound) (hv : w.store.verify m = .ok ())
    (honly : ∀ n ∈ w.store.preorder m, n.kind.isModule = true → n.id = m) (hrun : run m w = .ok () w') :
    (∀ n ∈ w'.store.preorder m, ∀ value attr, n.kind = .member value attr →
      (w'.store.kind? value).any (·.isName "self") = true → (w.store.stateVars m).find? attr = none) ∧
    ∀ n ∈ w'.store.nodes, n.id ∉ w.store.ids → ∀ slot keys,
      ((∃ target, n.kind = .storageRead target slot keys) ∨ ∃ value, n.kind = .storageWrite slot keys value) →
      ∃ v ∈ w.store.stateVars m, ∃ tys value, v.slotTy = .storage tys value ∧ keys.length = tys.length ∧
        w'.store.kind? slot = some (.name (v.name ++ "_STORAGE")) ∧ w'.store.ty? slot = some v.slotTy := by
  obtain ⟨T, rfl, hf, hn, hT⟩ := (Store.verify_iff hs.nodup m).1 hv
  obtain ⟨ty, body, body', hbody, hran⟩ := exists_ran hs hf hn hT (hT.no_module hf hn honly) hrun
  have hroot := hran.rooted
  have h' := hran.has
  have hT' := h'.holds
  have hf' := h'.fits
  have hvars : w.store.stateVars T.id = Tree.catalogOf body := by
    rw [hT.stateVars_eq hf hn, congrArg Tree.body hbody, Tree.body_node]
  rw [hvars]
  constructor
  · intro n hmem value attr hkind hself
    have hpre := hT'.preorder_eq hf' h'.nodup
    rw [show w'.store.preorder T.id = _ from hpre] at hmem
    obtain ⟨C, u, hplug, rfl⟩ := hT'.exists_of_mem_nodes hmem
    have hclean : (Tree.node T.id ty .module [] body' []).Clean (Tree.catalogOf body) :=
      Tree.all_iff.2 ⟨rfl, fun k hk => hroot.clean k (by simpa using hk)⟩
    exact find?_eq_none_of_clean (Tree.All.of_plug (hplug ▸ hclean)) (Store.Holds.inside (hplug ▸ hT'))
      (Ctx.fits_of_plug (hplug ▸ hf')) hkind hself
  · intro n hmem hnew slot keys hkind
    have hslot : (Tree.node T.id ty .module [] body' []).All fun u => u.id ∈ T.ids ∨
        Slotted (Tree.catalogOf body) u := by
      refine Tree.all_iff.2 ⟨.inl T.id_mem_ids, ?_⟩
      simp only [Tree.kids_node, List.nil_append, List.append_nil]
      refine hroot.slotted fun d hd => .inl ?_
      rw [hbody]
      exact Tree.ids_subset_of_mem_kids (by simpa using hd)
    -- what is registered is in the tree, or was registered before
    have hin : n.id ∈ (Tree.node T.id ty .module [] body' []).ids := by
      rcases h'.keeps.rest n.id (List.mem_map_of_mem hmem) with hin | hin
      · simpa using hin
      · exact absurd (List.mem_filter.1 hin).1 hnew
    obtain ⟨C, u, hplug, hu⟩ := Tree.exists_place hin
    have hhold : w'.store.Holds C.parent u := Store.Holds.inside (hplug ▸ hT')
    have hnu : n = u.root C.parent := by
      have := Store.find?_of_mem h'.keeps.sound.nodup hmem
      rwa [← hu, hhold.top, Option.some.injEq, eq_comm] at this
    subst hnu
    rcases (Tree.All.of_plug (hplug ▸ hslot : (C.plug u).All _)).top with hold | hok
    · exact absurd (hT.mem_ids hold) hnew
    · exact exists_slot_of_slotted hok hhold (Ctx.fits_of_plug (hplug ▸ hf')) hkind

/-- A contract in which a key and a value have accesses, and the value may be the one that is stored to:
```
x: uint256
m: public(HashMap[uint256, uint256])
def f():
    self.m[self.x] += self.m[i]
```
-/
def ledger : Store :=
  let member (i j : NodeId) (x : String) : Tree := .node i none (.member x) [.leaf j none (.name "self")] [] []
  let subscript (i : NodeId) (value key : Tree) : Tree := .node i none .subscript [value, key] [] []
  .ofTree
    (.node ⟨0⟩ none .module [] [
      .node ⟨1⟩ (some (.uint 256)) (.variableDecl false false false) [.leaf ⟨2⟩ none (.name "x")] [] [],
      .node ⟨3⟩ (some (.mapping (.uint 256) (.uint 256))) (.variableDecl true false false)
        [.leaf ⟨4⟩ none (.name "m")] [] [],
      .node ⟨5⟩ none (.functionDef "f" .external .nonPayable) [] [
        .node ⟨6⟩ none (.augAssign .add) [
          subscript ⟨7⟩ (member ⟨8⟩ ⟨9⟩ "m") (member ⟨10⟩ ⟨11⟩ "x"),
          subscript ⟨12⟩ (member ⟨13⟩ ⟨14⟩ "m") (.leaf ⟨15⟩ none (.name "i"))] [] []] []] [])
    ⟨16⟩

theorem sound_ledger : ledger.Sound := ⟨by decide, by decide, by decide⟩

theorem verify_ledger : ledger.verify ⟨0⟩ = .ok () := by decide +kernel

theorem only_module_ledger : ∀ n ∈ ledger.preorder ⟨0⟩, n.kind.isModule = true → n.id = ⟨0⟩ := by decide

theorem run_ledger : ∃ w', run ⟨0⟩ ⟨ledger, {}⟩ = .ok () w' := by decide +kernel

theorem run_complete_ledger : (ledger.stateVars ⟨0⟩).map StorageVar.name = ["x", "m"] ∧
    ∃ w', run ⟨0⟩ ⟨ledger, {}⟩ = .ok () w' ∧
      ∀ n ∈ w'.store.preorder ⟨0⟩, ∀ value attr, n.kind = .member value attr →
        (w'.store.kind? value).any (·.isName "self") = true → (ledger.stateVars ⟨0⟩).find? attr = none := by
  obtain ⟨w', hw'⟩ := run_ledger
  exact ⟨by decide +kernel, w', hw', (run_complete sound_ledger verify_ledger only_module_ledger hw').1⟩

end Lowering

end ContractTree
