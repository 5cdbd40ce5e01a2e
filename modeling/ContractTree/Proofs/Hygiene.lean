import ContractTree.Proofs.Persistence
import ContractTree.Proofs.Traced

/-!
Temporaries are hygienic. Each statement that the pass adds binds a temporary of its own, and what the source
spells stays as it is spelled; so no variable of the source is overwritten, and none is captured, unless the source
itself spells a name like a temporary whose identity is still to be handed out (`Lowering.run_hygienic`). The
counter of identities says nothing about the names in a document, so a document may do that, and then its variable
is captured (`Lowering.run_captures_variable`).
-/

namespace ContractTree.Lowering

variable {w w' : Workspace Progress} {m : NodeId}

/-- In the store `s'`, `t` is bound by a statement of the tree below `m` that was not yet in `s`. -/
def Introduced (s s' : Store) (m t : NodeId) : Prop :=
  ∃ n ∈ s'.preorder m, n.id ∉ s.ids ∧ n.kind.bound? = some t

/-- **Temporaries are hygienic.** When the pass has run on a tree that was loaded, each name that a statement it
added binds is a temporary, a new node that is spelled after its own identity, and no two of these statements bind
the same name. Every other name that was added is a copy of one in the source, a reference to a temporary, a slot,
or a key of a getter, and what was in the source is spelled as before. A temporary differs from every name and
every argument of the source, if none of those is spelled like a temporary that is still to come. -/
theorem run_hygienic {text : String} (hload : Document.load text = .ok (w.store, m)) (hrun : run m w = .ok () w') :
    (∀ t, Introduced w.store w'.store m t → t ∉ w.store.ids ∧ w'.store.kind? t = some (.name (tempName t))) ∧
    (∀ n ∈ w'.store.preorder m, ∀ n' ∈ w'.store.preorder m, n.id ∉ w.store.ids → n'.id ∉ w.store.ids →
      ∀ t t' x, n.kind.bound? = some t → n'.kind.bound? = some t' → w'.store.kind? t = some (.name x) →
      w'.store.kind? t' = some (.name x) → n = n') ∧
    (∀ n ∈ w'.store.preorder m, n.id ∉ w.store.ids → ∀ x, n.kind = .name x → w.store.Spelled x) ∧
    (∀ n ∈ w'.store.preorder m, n.id ∈ w.store.ids → ∃ o, w.store.find? n.id = some o ∧
      n.kind.label = o.kind.label) ∧
    ((∀ o ∈ w.store.preorder m, ∀ x, o.kind.identifier? = some x → ∀ i, w.store.nextId ≤ i → x ≠ tempName i) →
      ∀ t, Introduced w.store w'.store m t → ∀ o ∈ w.store.preorder m, o.kind.identifier? ≠ some
      (tempName t)) := by
  obtain ⟨hs, hv, -⟩ := Document.exists_of_load hload
  obtain ⟨⟨-, T, rfl, hf, hn, hT⟩, htraced⟩ := run_traced hs hv hrun
  have htidy := htraced.tidy
  have hpre := hT.preorder_eq hf hn
  have hfind {n : Node} (hmem : n ∈ w'.store.preorder T.id) : w'.store.find? n.id = some n := hT n (hpre ▸ hmem)
  have hlisted {n : Node} {t : NodeId} (hmem : n ∈ w'.store.preorder T.id) (hb : n.kind.bound? = some t) :=
    hT.parent?_of_child hf (hpre ▸ hmem) (Kind.mem_children_of_bound? hb)
  have htemp {t : NodeId} (ht : Introduced w.store w'.store T.id t) : w.store.Temp w'.store t := by
    obtain ⟨n, hmem, hnew, hb⟩ := ht
    have hn := hfind hmem
    exact htidy.bound hn (htidy.le_of_new (Store.mem_ids_of_find? hn) hnew) hb
  have hspelled {t : NodeId} (ht : Introduced w.store w'.store T.id t) :
      w'.store.kind? t = some (.name (tempName t)) := by
    obtain ⟨n, hmem, -, hb⟩ := id ht
    obtain ⟨k, hk⟩ := Option.isSome_iff_exists.1 (Store.contains_iff.2 (hlisted hmem hb).1)
    rw [Store.kind?, hk, Option.map_some, Kind.eq_name_of_label ((htemp ht).named.label hk)]
  refine ⟨fun t ht => ⟨fun hmem => ?_, hspelled ht⟩, fun n hmem n' hmem' hnew hnew' t t' x ht ht' hx hx' => ?_,
    fun n hmem _ x hx => htidy.names (hfind hmem) (by rw [hx]; rfl),
    fun n hmem hold => htidy.grew.label (hs.below _ hold) (hfind hmem), fun hfree t ht o ho hx => ?_⟩
  · exact Nat.not_lt.2 (htemp ht).fresh (hs.below t hmem)
  · -- both bind one temporary, which has one parent
    rw [hspelled ⟨n, hmem, hnew, ht⟩, ← hx', hspelled ⟨n', hmem', hnew', ht'⟩] at hx
    obtain rfl : t = t' := tempName_injective (by simpa using hx)
    have hid : n.id = n'.id := Option.some.inj ((hlisted hmem ht).2.symm.trans (hlisted hmem' ht').2)
    exact Option.some.inj ((hfind hmem).symm.trans (hid ▸ hfind hmem'))
  · exact hfree o ho _ hx t (htemp ht).fresh rfl

/-- A contract that adds one of its variables to what it stores:
```
x: uint256
def f():
    y = self.x + z
```
-/
def summing (z : String) : Tree :=
  .node ⟨0⟩ none .module [] [
    .node ⟨1⟩ (some (.uint 256)) (.variableDecl false false false) [.leaf ⟨2⟩ none (.name "x")] [] [],
    .node ⟨3⟩ none (.functionDef "f" .external .nonPayable) [] [
      .node ⟨4⟩ none .assign [.leaf ⟨5⟩ none (.name "y"),
        .node ⟨6⟩ none (.binOp .add) [.node ⟨7⟩ none (.member "x") [.leaf ⟨8⟩ none (.name "self")] [] [],
          .leaf ⟨9⟩ none (.name z)] [] []] [] []] []] []

theorem load_summing (z : String) :
    Document.load (Document.ofTree (summing z) ⟨10⟩).text = .ok (.ofTree (summing z) ⟨10⟩, ⟨0⟩) := by
  have hf : (summing z).Fits := by simp [summing, Tree.leaf, Tree.Fits, Tree.FitsAll, Label.Fits]
  have hids : (summing "z").ids.Nodup ∧ ∀ i ∈ (summing "z").ids, i < ⟨10⟩ := by decide
  have htys : ∀ n ∈ (summing z).nodes none, ∀ ty ∈ n.ty, ty.toJson.depth ≤ 124 := by
    simp [summing, Tree.leaf, Tree.nodes, Tree.nodesAll, Tree.root]
    decide
  rw [Document.load_text hf hids.1 hids.2, if_pos htys]
  rfl

theorem run_summing : ∃ w', run ⟨0⟩ ⟨.ofTree (summing "z") ⟨10⟩, {}⟩ = .ok () w' := by decide +kernel

theorem run_hygienic_summing : ∃ w', run ⟨0⟩ ⟨.ofTree (summing "z") ⟨10⟩, {}⟩ = .ok () w' ∧
    ∀ t, Introduced (.ofTree (summing "z") ⟨10⟩) w'.store ⟨0⟩ t →
      ∀ o ∈ (Store.ofTree (summing "z") ⟨10⟩).preorder ⟨0⟩, o.kind.identifier? ≠ some (tempName t) := by
  obtain ⟨w', hw'⟩ := run_summing
  refine ⟨w', hw', (run_hygienic (load_summing "z") hw').2.2.2.2 fun o ho x hx i _ he => ?_⟩
  have hne : ∀ o ∈ (Store.ofTree (summing "z") ⟨10⟩).preorder ⟨0⟩, ∀ x ∈ o.kind.identifier?,
      x.toList.head? ≠ some '_' := by
    decide
  exact hne o ho x hx (by simp [he, tempName])

/-- A variable of the source that is spelled like the next temporary is captured: the read of the slot binds its
name in front of the statement that uses it. -/
theorem run_captures_variable : ∃ w', Document.load (Document.ofTree (summing "__tmp_10") ⟨10⟩).text =
      .ok (.ofTree (summing "__tmp_10") ⟨10⟩, ⟨0⟩) ∧
    run ⟨0⟩ ⟨.ofTree (summing "__tmp_10") ⟨10⟩, {}⟩ = .ok () w' ∧
    Introduced (.ofTree (summing "__tmp_10") ⟨10⟩) w'.store ⟨0⟩ ⟨10⟩ ∧
    (Store.ofTree (summing "__tmp_10") ⟨10⟩).kind? ⟨9⟩ = some (.name (tempName ⟨10⟩)) := by
  have hrun : ∃ w', run ⟨0⟩ ⟨.ofTree (summing "__tmp_10") ⟨10⟩, {}⟩ = .ok () w' ∧
      ∃ n ∈ w'.store.preorder ⟨0⟩, n.id ∉ (Store.ofTree (summing "__tmp_10") ⟨10⟩).ids ∧
      n.kind.bound? = some ⟨10⟩ := by
    decide +kernel
  obtain ⟨w', hw', hintro⟩ := hrun
  exact ⟨w', load_summing "__tmp_10", hw', hintro, by decide⟩

end ContractTree.Lowering
