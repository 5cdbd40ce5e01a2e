import ContractTree.Proofs.Completeness
import ContractTree.Proofs.Linked

/-!
The tree of the module stays a tree. Each visit of the pass leaves a tree of the module (`Lowering.Stands`),
whatever kinds of nodes stand in whatever places; so does the walk, since it only visits nodes of that tree, and so
a store that passes the check below the module still does when the pass has run or has stopped
(`Lowering.verify_run`). Beside that tree the store holds nothing that it did not hold beside the tree before, so
that the pass leaves no node behind (`Lowering.run_leaves_nothing`).
-/

namespace ContractTree

namespace Lowering

variable {w w' : Workspace Progress} {c : Catalog} {st : Stats} {G : Outside} {K : Ctx} {t T : Tree} {m i : NodeId}

/-- The store holds the tree `T` of the module `m`, and else only what is in `G`. -/
structure Stands (G : Outside) (m : NodeId) (w : Workspace Progress) (T : Tree) : Prop where
  id : T.id = m
  label : T.label = .module
  has : ∃ c st, Has w c st [(none, T)] [] G

namespace Stands

theorem whole (h : Stands G m w T) : Whole m w := by
  obtain ⟨c, st, hc⟩ := h.has
  exact hc.whole List.mem_cons_self h.id

theorem notMem (h : Stands G m w T) (hi : i ∈ T.ids) : i ∉ G.ids := by
  obtain ⟨c, st, hc⟩ := h.has
  exact fun hG => (hc.keeps.apart i hG).2 (by simpa using hi)

theorem isAttached (h : Stands G m w T) (hi : i ∈ T.ids) : w.store.isAttached i = true := by
  obtain ⟨c, st, hc⟩ := h.has
  exact Store.isAttached_of_mem hc.holds hc.fits
    hc.nodup h.label hi

/-- A node that is attached and no remainder from before the pass is in the tree. -/
theorem mem_of_isAttached (h : Stands G m w T) (hi : i ∉ G.ids) (ha : w.store.isAttached i = true) :
    i ∈ T.ids := by
  obtain ⟨c, st, hc⟩ := h.has
  have hmem : i ∈ w.store.ids := by
    by_contra hn
    rw [Store.isAttached_of_notMem hn] at ha
    cases ha
  rcases hc.keeps.rest i hmem with h | h
  · simpa using h
  · exact absurd h hi

theorem children (h : Stands G m w T) (hi : i ∈ T.ids) : ∀ j ∈ w.store.children i, j ∈ T.ids := by
  obtain ⟨c, st, hc⟩ := h.has
  obtain ⟨C, u, rfl, rfl⟩ := Tree.exists_place hi
  have hu := Store.Holds.inside hc.holds
  rw [hu.children (Ctx.fits_of_plug hc.fits)]
  intro j hj
  obtain ⟨k, hk, rfl⟩ := List.mem_map.1 hj
  exact (Ctx.mem_ids_plug _ _ _).2 (.inr (Tree.ids_subset_of_mem_kids hk k.id_mem_ids))

/-- The module is no child. -/
theorem child_ne (h : Stands G m w T) (hi : i ∈ T.ids) : ∀ j ∈ w.store.children i, j ≠ m := by
  obtain ⟨c, st, hc⟩ := h.has
  obtain ⟨C, u, rfl, rfl⟩ := Tree.exists_place hi
  have hu := Store.Holds.inside hc.holds
  have hf := Ctx.fits_of_plug hc.fits
  rw [hu.children hf]
  rintro j hj rfl
  obtain ⟨k, hk, hid⟩ := List.mem_map.1 hj
  have htop := hc.holds.parent?
  have hkid := ((Store.holds_iff.1 hu).2 k hk).parent?
  rw [h.id, ← hid, hkid] at htop
  cases htop

end Stands

/-- One visit leaves a tree of the module, with the visited node or what replaced it in it. -/
theorem Visited.stands (h : Visited c st G K t w w') (hw : Has w c st [(none, K.plug t)] [] G)
    (hm : (K.plug t).label = .module) : ∃ T, Stands G (K.plug t).id w' T ∧
      (t.id ∈ T.ids ∨ ∃ j ∈ T.ids, j ≠ (K.plug t).id ∧ w'.store.replacementOf? t.id = some j) := by
  have hin : t.id ∈ (K.plug t).ids := Ctx.id_mem_plug _ _
  cases h with
  | module hl hs ho => exact ⟨_, ⟨rfl, hm, _, _, ho, hs ▸ hw.keeps⟩, .inl hin⟩
  | left hw' hl h => exact ⟨_, ⟨rfl, hm, c, st, hw' ▸ hw⟩, .inl hin⟩
  | @declared v gs hl hv hty hgs hfree h =>
    refine ⟨_, ⟨?_, ?_, c, _, h⟩, .inl (Tree.ids_subset_addDecls ?_)⟩
    · rw [Tree.id_addDecls]
      exact Ctx.id_plug_congr Tree.id_declareSlot
    · rw [Tree.label_addDecls]
      cases K with
      | nil =>
        obtain ⟨a, b, d, hl⟩ := hl
        rw [Ctx.plug_nil, hl] at hm
        cases hm
      | cons f C => rw [← hm, Ctx.label_plug_cons]
    · refine (Ctx.mem_ids_plug _ _ _).2 (.inr ?_)
      rw [← Tree.id_declareSlot (v := v)]
      exact Tree.id_mem_ids _
  | @rewritten es t' σ ht hσ h hgone hrep =>
    have hid : ((K.emit es).plug t').id = (K.plug t).id := by
      rw [Ctx.id_plug_emit]
      exact Ctx.id_plug_of_site hσ
    refine ⟨_, ⟨hid, ?_, c, _, h⟩, .inr ⟨t'.id, Ctx.id_mem_plug _ _, ?_, hrep⟩⟩
    · cases K with
      | nil => cases hσ
      | cons f C =>
        rw [← hm, Ctx.label_plug_emit, Ctx.label_plug_cons]
    · -- what replaces a node has a parent
      intro heq
      have hpar := h.holds.inside.parent?
      rw [heq, ← hid, h.holds.parent?, Ctx.parent_emit] at hpar
      cases K with
      | nil => cases hσ
      | cons f C => cases hpar

/-! ## The walk -/

/-- What is true of the workspace stays true in a visit to a node of the tree, and a visit that fails leaves `J`.
-/
def Kept (G : Outside) (m : NodeId) (I J : Workspace Progress → Prop) : Prop :=
  ∀ {w : Workspace Progress} {T : Tree} {i : NodeId}, Stands G m w T → i ∈ T.ids → I w →
    Ends (visitor.dispatch i m) w (fun _ => I) fun _ => J

/-- The same of the visits to the nodes below the module. -/
def KeptBelow (G : Outside) (m : NodeId) (I J : Workspace Progress → Prop) : Prop :=
  ∀ {w : Workspace Progress} {T : Tree} {i : NodeId}, Stands G m w T → i ∈ T.ids → i ≠ m → I w →
    Ends (visitor.dispatch i m) w (fun _ => I) fun _ => J

variable {I J : Workspace Progress → Prop}

theorem Kept.below (h : Kept G m I J) : KeptBelow G m I J := fun hs hi _ => h hs hi

/-- A visit to a node of the tree. -/
theorem dispatch_stands (hkept : Ends (visitor.dispatch i m) w (fun _ => I) fun _ => J) (h : Stands G m w T)
    (hi : i ∈ T.ids) : Ends (visitor.dispatch i m) w (fun _ w' => (∃ T', Stands G m w' T' ∧
      (i ∈ T'.ids ∨ ∃ j ∈ T'.ids, j ≠ m ∧ w'.store.replacementOf? i = some j)) ∧ I w') fun _ w' => Whole m w' ∧
        J w' := by
  obtain ⟨c, st, hc⟩ := h.has
  obtain ⟨K, t, rfl, rfl⟩ := Tree.exists_place hi
  obtain rfl := h.id
  exact ((dispatch_spec hc).and hkept).mono (fun _ w' hv => ⟨hv.1.stands hc h.label, hv.2⟩)
    fun _ _ he => ⟨he.1.1, he.2⟩

theorem settle_stands (hI : KeptBelow G m I J) (hJ : ∀ w, I w → J w) (fuel : Nat) (h : Stands G m w T) (hw : J w)
    (hi : i ∈ T.ids) (hkept : Ends (visitor.dispatch i m) w (fun _ => I) fun _ => J) :
    Ends (visitor.settle m fuel i) w (fun r w' => (∃ T', Stands G m w' T' ∧ ∀ j ∈ r, j ∈ T'.ids) ∧ I w')
      fun _ w' => Whole m w' ∧ J w' := by
  induction fuel generalizing w T i with
  | zero => exact ⟨h.whole, hw⟩
  | succ fuel ih =>
    unfold Visitor.settle
    rw [ends_bind]
    refine (dispatch_stands hkept h hi).mono ?_ fun _ _ h => h
    rintro _ w' ⟨⟨T', h', hin⟩, hw'⟩
    rw [Lower.store_then]
    split
    · next ha =>
      refine ⟨⟨T', h', fun j hj => ?_⟩, hw'⟩
      obtain rfl := Option.some.inj hj
      exact h'.mem_of_isAttached (h.notMem hi) ha
    · next ha =>
      rcases hin with hin | ⟨j, hj, hne, hrep⟩
      · exact absurd (h'.isAttached hin) ha
      · rw [hrep]
        simp only [h'.isAttached hj, if_true]
        exact ih h' (hJ _ hw') hj (hI h' hj hne hw')

/-- The walk below a node of the tree, and below the children of one. -/
theorem walk_stands (hI : KeptBelow G m I J) (hJ : ∀ w, I w → J w) (fuel : Nat) :
    (∀ {w : Workspace Progress} {T : Tree} {i : NodeId}, Stands G m w T → J w → i ∈ T.ids →
      Ends (visitor.dispatch i m) w (fun _ => I) (fun _ => J) →
      Ends (visitor.walkNode m fuel i) w (fun _ w' => (∃ T', Stands G m w' T') ∧ I w')
      fun _ w' => Whole m w' ∧ J w') ∧
    ∀ {w : Workspace Progress} {T : Tree} {i : NodeId} (index : Nat), Stands G m w T → I w → i ∈ T.ids →
      Ends (visitor.walkChildren m fuel i index) w (fun _ w' => (∃ T', Stands G m w' T') ∧ I w')
        fun _ w' => Whole m w' ∧ J w' := by
  induction fuel with
  | zero => exact ⟨fun h hw _ _ => ⟨h.whole, hw⟩, fun _ h hw _ => ⟨h.whole, hJ _ hw⟩⟩
  | succ fuel ih =>
    refine ⟨fun {w T i} h hw hi hkept => ?_, fun {w T i} index h hw hi => ?_⟩
    · unfold Visitor.walkNode
      rw [ends_bind]
      refine (settle_stands hI hJ fuel h hw hi hkept).mono ?_ fun _ _ h => h
      rintro (_ | current) w' ⟨⟨T', h', hr⟩, hw'⟩
      · exact ⟨⟨T', h'⟩, hw'⟩
      · exact ih.2 0 h' hw' (hr current rfl)
    · unfold Visitor.walkChildren
      rw [Lower.store_then]
      dsimp only
      cases hchild : (w.store.children i)[index]? with
      | none => exact ⟨⟨T, h⟩, hw⟩
      | some child =>
        have hmem := List.mem_of_getElem? hchild
        have hin := h.children hi child hmem
        simp only
        rw [ends_bind]
        refine (ih.1 h (hJ _ hw) hin (hI h hin (h.child_ne hi child hmem) hw)).mono ?_ fun _ _ h => h
        rintro visited w' ⟨⟨T', h'⟩, hw'⟩
        rw [Lower.store_then]
        split
        · next ha => exact ih.2 _ h' hw' (h'.mem_of_isAttached (h.notMem hi) ha)
        · exact ⟨⟨T', h'⟩, hw'⟩

/-- The pass leaves a tree of the module, and beside it only what was beside the tree before; what the visit to the
module makes true is kept if every visit below it keeps it. -/
theorem run_stands_below (hfirst : T.label = .module → Ends (visitor.dispatch T.id T.id)
      { w with own := { w.own with stats := {} } } (fun _ => I) fun _ => J)
    (hI : KeptBelow (w.store.outside T) T.id I J) (hJ : ∀ w, I w → J w) (hs : w.store.Sound) (hf : T.Fits)
    (hn : T.ids.Nodup) (hT : w.store.Holds none T) (hstart : J { w with own := { w.own with stats := {} } }) :
    Ends (run T.id) w (fun _ w' => (∃ T', Stands (w.store.outside T) T.id w' T') ∧ I w')
      fun _ w' => Whole T.id w' ∧ J w' := by
  have hstands := has_of_holds (w := { w with own := { w.own with stats := {} } }) hs hf hn hT
  rw [ends_run hT.top]
  split
  · next hmod =>
    have hl := hf.isModule_kind.1 hmod
    have h : Stands _ T.id _ T := ⟨rfl, hl, _, _, hstands⟩
    exact ((walk_stands hI hJ _).1 h hstart T.id_mem_ids (hfirst hl)).mono (fun _ _ h => h) fun _ _ h => h
  · exact ⟨hstands.whole List.mem_cons_self rfl, hstart⟩

/-- The same of what every visit keeps. -/
theorem run_stands (hI : ∀ {G}, Kept G T.id I J) (hJ : ∀ w, I w → J w) (hs : w.store.Sound) (hf : T.Fits)
    (hn : T.ids.Nodup) (hT : w.store.Holds none T) (hstart : I { w with own := { w.own with stats := {} } }) :
    Ends (run T.id) w (fun _ w' => (∃ T', Stands (w.store.outside T) T.id w' T') ∧ I w')
      fun _ w' => Whole T.id w' ∧ J w' :=
  run_stands_below (fun hl => hI ⟨rfl, hl, _, _, has_of_holds hs hf hn hT⟩ T.id_mem_ids hstart)
    hI.below hJ hs hf hn hT (hJ _ hstart)

/-- The pass leaves a tree of the module, whether it comes to its end or not, and what every visit keeps is kept.
-/
theorem run_keeps (hI : ∀ {G}, Kept G m I J) (hJ : ∀ w, I w → J w) (hw : Whole m w)
    (hstart : I { w with own := { w.own with stats := {} } }) :
    Ends (run m) w (fun _ w' => Whole m w' ∧ I w') fun _ w' => Whole m w' ∧ J w' := by
  obtain ⟨hs, T, rfl, hf, hn, hT⟩ := hw
  refine (run_stands hI hJ hs hf hn hT hstart).mono ?_ fun _ _ h => h
  rintro _ w' ⟨⟨T', h'⟩, hw'⟩
  exact ⟨h'.whole, hw'⟩

/-- Every visit keeps what is always true. -/
theorem kept_true : Kept G m (fun _ => True) fun _ => True := fun _ _ _ => by
  unfold Ends
  split <;> trivial

theorem run_whole (hw : Whole m w) : Ends (run m) w (fun _ w' => Whole m w') fun _ => Whole m := by
  exact (run_keeps kept_true (fun _ h => h) hw trivial).mono (fun _ _ h => h.1) fun _ _ h => h.1

/-- The pass refuses what is no module, and leaves the store alone. -/
theorem run_refuses {n : Node} (hn : w.store.find? m = some n) (hk : n.kind.isModule = false) :
    Ends (run m) w (fun _ _ => False) fun _ w' => w'.store = w.store := by
  rw [ends_run hn, if_neg (by simp [hk])]

theorem isModule_of_run {n : Node} (hn : w.store.find? m = some n) (hrun : run m w = .ok () w') :
    n.kind.isModule = true := by
  by_contra hk
  exact (run_refuses hn (by simpa using hk)).of_ok hrun

/-- The catalog and the statistics that a run starts with do not matter. -/
theorem run_own {n : Node} (hn : w.store.find? m = some n) (hk : n.kind.isModule = true) (o : Progress) :
    run m w = run m ⟨w.store, o⟩ := by
  have hbind : ∀ {α β : Type} {x : Lower α} {f : α → Lower β} {w₁ w₂ : Workspace Progress}, x w₁ = x w₂ →
      (x >>= f) w₁ = (x >>= f) w₂ := by
    intro α β x f w₁ w₂ h
    simp only [bind, EStateM.bind, h]
  have htag : n.tag = .module := by
    unfold Node.tag
    cases hkind : n.kind <;> simp_all [Kind.isModule, Kind.tag]
  have hnode : ∀ c, Lower.edit (Edit.node m) ⟨w.store, ⟨c, {}⟩⟩ = .ok n ⟨w.store, ⟨c, {}⟩⟩ := by
    intro c
    rw [Lower.edit_apply, Edit.node_apply, hn]
  -- the visit to the module makes the catalog anew
  have hdispatch : ∀ c, visitor.dispatch m m ⟨w.store, ⟨c, {}⟩⟩ = visitor.dispatch m m ⟨w.store, ⟨[], {}⟩⟩ := by
    intro c
    show (Lower.edit (Edit.node m) >>= fun n => visitor.visit n.tag m m) _ =
      (Lower.edit (Edit.node m) >>= fun n => visitor.visit n.tag m m) _
    simp only [bind, EStateM.bind, hnode, htag]
    rfl
  have hwalk : ∀ fuel c, visitor.walkNode m (fuel + 2) m ⟨w.store, ⟨c, {}⟩⟩ =
      visitor.walkNode m (fuel + 2) m ⟨w.store, ⟨[], {}⟩⟩ := by
    intro fuel c
    unfold Visitor.walkNode Visitor.settle
    exact hbind (hbind (hdispatch c))
  obtain ⟨fuel, hfuel⟩ : ∃ k, walkBound w.store = k + 2 := by
    have : 8 * 4 * 4 ≤ walkBound w.store := Nat.mul_le_mul (by omega) (by omega)
    exact ⟨walkBound w.store - 2, by omega⟩
  have hrun : ∀ o : Progress, run m ⟨w.store, o⟩ = (visitor.walkNode m (fuel + 2) m >>= fun _ => pure ())
      ⟨w.store, ⟨[], {}⟩⟩ := by
    intro o
    show (Lower.edit (Edit.node m) >>= fun n => if n.kind.isModule then
      (visitor.walkNode m (walkBound w.store) m >>= fun _ => pure ()) else throw _) ⟨w.store, ⟨o.catalog, {}⟩⟩ = _
    rw [hfuel, ← hbind (hwalk fuel o.catalog)]
    simp only [bind, EStateM.bind, hnode, hk, if_true]
  rw [hrun o]
  exact hrun w.own

/-- **The tree stays consistent.** If the check finds no flaw below a module, then it finds none after the pass has
run, and none after the pass has stopped with an error of either sort. -/
theorem verify_run (hs : w.store.Sound) (hv : w.store.verify m = .ok ()) :
    (∀ w', run m w = .ok () w' → w'.store.verify m = .ok ()) ∧
      ∀ e w', run m w = .error e w' → w'.store.verify m = .ok () := by
  have hcheck : ∀ w' : Workspace Progress, Whole m w' → w'.store.verify m = .ok () :=
    fun w' h => (Store.verify_iff h.1.nodup m).2 h.2
  have hrun := run_whole (w := w) ⟨hs, (Store.verify_iff hs.nodup m).1 hv⟩
  refine ⟨fun w' hw' => hcheck w' (hrun.of_ok hw'), fun e w' hw' => hcheck w' ?_⟩
  rw [Ends, hw'] at hrun
  exact hrun

/-- A contract with an access that stands as a statement: it is replaced before the pass finds that no statement is
left to put the read in front of. -/
def bareAccess : Store :=
  .ofTree
    (.node ⟨0⟩ none .module [] [
      .node ⟨1⟩ (some (.uint 256)) (.variableDecl false false false) [.leaf ⟨2⟩ none (.name "x")] [] [],
      .node ⟨3⟩ none (.functionDef "f" .external .nonPayable) []
        [.node ⟨4⟩ none (.member "x") [.leaf ⟨5⟩ none (.name "self")] [] []] []] [])
    ⟨6⟩

theorem verify_run_bareAccess : ∃ w', run ⟨0⟩ ⟨bareAccess, {}⟩ =
    .error (.structural (.anchorNotFound ⟨4⟩ ⟨3⟩)) w' ∧ w'.store.verify ⟨0⟩ = .ok () := by
  have hrun : ∃ w', run ⟨0⟩ ⟨bareAccess, {}⟩ = .error (.structural (.anchorNotFound ⟨4⟩ ⟨3⟩)) w' := by
    decide +kernel
  obtain ⟨w', hw'⟩ := hrun
  exact ⟨w', hw', (verify_run ⟨by decide, by decide, by decide⟩ (by decide +kernel)).2 _ _ hw'⟩

/-! ## Nothing is left behind -/

/-- What is registered and not reached from the module when the pass has run was so before. -/
theorem run_remainder (hs : w.store.Sound) (hv : w.store.verify m = .ok ()) (hrun : run m w = .ok () w')
    {i : NodeId} (hi : i ∈ w'.store.ids) :
    (∃ path, w'.store.Reaches m path i) ∨ i ∈ w.store.ids ∧ ¬ ∃ path, w.store.Reaches m path i := by
  obtain ⟨T, rfl, hf, hn, hT⟩ := (Store.verify_iff hs.nodup m).1 hv
  obtain ⟨⟨T', h'⟩, -⟩ := (run_stands kept_true (fun _ h => h) hs hf hn hT trivial).of_ok hrun
  obtain ⟨c, st, hc⟩ := h'.has
  have hT' := hc.keeps.holds (none, T') List.mem_cons_self
  rw [← hT.mem_ids_iff hf, ← h'.id, ← hT'.mem_ids_iff (hc.keeps.fits (none, T') List.mem_cons_self)]
  rcases hc.keeps.rest i hi with hi | hi
  · exact .inl (by simpa using hi)
  · exact .inr (by simpa using hi)

/-- **The pass leaves no node behind.** If the check finds no flaw below a module from which all registered nodes
are reached, then after the pass has run the registered nodes are again those that are reached from the module:
what was taken out of the tree is gone, and nothing that is still in it. -/
theorem run_leaves_nothing (hs : w.store.Sound) (hv : w.store.verify m = .ok ())
    (hall : ∀ i ∈ w.store.ids, ∃ path, w.store.Reaches m path i) (hrun : run m w = .ok () w') (i : NodeId) :
    i ∈ w'.store.ids ↔ ∃ path, w'.store.Reaches m path i := by
  constructor
  · intro hi
    rcases run_remainder hs hv hrun hi with hin | ⟨hold, hout⟩
    · exact hin
    · exact absurd (hall i hold) hout
  · intro hreach
    obtain ⟨-, T', rfl, hf', -, hT'⟩ := (run_whole ⟨hs, (Store.verify_iff hs.nodup m).1 hv⟩).of_ok hrun
    exact hT'.mem_ids ((hT'.mem_ids_iff hf').2 hreach)

theorem reaches_ledger : ∀ i ∈ ledger.ids, ∃ path, ledger.Reaches ⟨0⟩ path i := by
  obtain ⟨T, hid, hf, hn, hT⟩ := (Store.verify_iff sound_ledger.nodup ⟨0⟩).1 verify_ledger
  have hpre := hT.preorder_eq hf hn
  intro i hi
  rw [← hid, ← hT.mem_ids_iff hf, ← Tree.map_id_nodes none, ← hpre, hid]
  revert i
  decide

theorem run_leaves_nothing_ledger : ∃ w', run ⟨0⟩ ⟨ledger, {}⟩ = .ok () w' ∧
    ∀ i, i ∈ w'.store.ids ↔ ∃ path, w'.store.Reaches ⟨0⟩ path i := by
  obtain ⟨w', hw'⟩ := run_ledger
  exact ⟨w', hw', run_leaves_nothing sound_ledger verify_ledger reaches_ledger hw'⟩

end Lowering

end ContractTree
