import ContractTree.Proofs.Ends
import Mathlib.Order.Bounds.Basic

/-!
What a discard removes. A node owns the children that name it as their parent, and what is owned goes with it
(`Store.Owned`). The removal is a loop over a stack, which asks for parents in a store that it is making smaller;
it comes to its end however the links go, in whatever order the children are stacked, and what it has removed then
is what was owned at the start (`Store.loopEnds_discard`, `Store.discardAll_eq`). So a discard takes the least set
of nodes that it may take (`Edit.discard_removes`).
-/

namespace ContractTree

namespace Store

/-- The nodes in `tops`, and with a node every child that it lists and that names it as its parent. -/
inductive Owned (s : Store) (tops : List NodeId) : NodeId → Prop
  | top {i : NodeId} (h : i ∈ tops) : Owned s tops i
  | child {x c : NodeId} (hx : Owned s tops x) (hc : c ∈ s.children x) (hp : s.parent? c = some x) : Owned s tops c

open Classical in
/-- The store without what is owned by the nodes in `tops`. -/
noncomputable def pruned (s : Store) (tops : List NodeId) : Store :=
  { s with nodes := s.nodes.filter fun n => ¬ s.Owned tops n.id }

/-- One turn of the loop that discards what is on the stack. The last child is the first on the stack. -/
def discardTurn : Store × List NodeId → Store ⊕ Store × List NodeId
  | (s, []) => .inl s
  | (s, id :: stack) =>
    match s.find? id with
    | none => .inr (s, stack)
    | some n =>
      let rest := s.erase id
      .inr (rest, (n.children.filter fun c => rest.parent? c = some id).reverse ++ stack)

variable {s : Store} {id i x c : NodeId} {n : Node} {tops tops' stack : List NodeId}

theorem Owned.mono (h : s.Owned tops i) (hsub : ∀ j ∈ tops, j ∈ tops') : s.Owned tops' i := by
  induction h with
  | top h => exact .top (hsub _ h)
  | child _ hc hp ih => exact .child ih hc hp

theorem mem_children_erase : c ∈ (s.erase id).children x ↔ x ≠ id ∧ c ∈ s.children x := by
  rw [children, find?_erase]
  by_cases hx : x = id <;> simp [hx, children]

theorem parent?_erase_eq_some : (s.erase id).parent? c = some x ↔ c ≠ id ∧ s.parent? c = some x := by
  rw [parent?, find?_erase]
  by_cases hc : c = id <;> simp [hc, parent?]

/-- What a node owns is the node itself, and what the children that name it as their parent own when it is gone. -/
theorem owned_cons_iff (hn : s.find? id = some n) :
    s.Owned (id :: stack) i ↔
      i = id ∨ (s.erase id).Owned (n.children.filter (fun c => (s.erase id).parent? c = some id) ++ stack) i := by
  have hchildren : s.children id = n.children := by rw [children, hn]; rfl
  constructor
  · intro h
    induction h with
    | top h =>
      rcases List.mem_cons.1 h with rfl | h
      · exact .inl rfl
      · exact .inr (.top (List.mem_append_right _ h))
    | @child x c _ hc hp ih =>
      by_cases hid : c = id
      · exact .inl hid
      · have hp' : (s.erase id).parent? c = some x := parent?_erase_eq_some.2 ⟨hid, hp⟩
        by_cases hx : x = id
        · subst hx
          exact .inr (.top (List.mem_append_left _ (List.mem_filter.2 ⟨hchildren ▸ hc, by simpa using hp'⟩)))
        · exact .inr (.child (ih.resolve_left hx) (mem_children_erase.2 ⟨hx, hc⟩) hp')
  · rintro (rfl | h)
    · exact .top List.mem_cons_self
    · induction h with
      | top h =>
        rcases List.mem_append.1 h with h | h
        · obtain ⟨hc, hp⟩ := List.mem_filter.1 h
          exact .child (.top List.mem_cons_self) (hchildren ▸ hc) (parent?_erase_eq_some.1 (by simpa using hp)).2
        · exact .top (List.mem_cons_of_mem _ h)
      | child _ hc hp ih => exact .child ih (mem_children_erase.1 hc).2 (parent?_erase_eq_some.1 hp).2

theorem pruned_nil : s.pruned [] = s := by
  have hnone : ∀ i, ¬ s.Owned [] i := by
    intro i h
    induction h with
    | top h => simp at h
    | child _ _ _ ih => exact ih
  simp [pruned, hnone]

/-- What is owned does not depend on the order of the stack. -/
theorem pruned_congr (h : ∀ j, j ∈ tops ↔ j ∈ tops') : s.pruned tops = s.pruned tops' := by
  have howned : ∀ i, s.Owned tops i ↔ s.Owned tops' i := fun i =>
    ⟨fun hi => hi.mono fun j hj => (h j).1 hj, fun hi => hi.mono fun j hj => (h j).2 hj⟩
  unfold pruned
  congr 1
  refine List.filter_congr fun m _ => ?_
  simp [howned]

/-- A node that is not registered owns nothing. -/
theorem pruned_of_none (hid : s.find? id = none) : s.pruned (id :: stack) = s.pruned stack := by
  have hchildren : s.children id = [] := by rw [children, hid]; rfl
  have howned : ∀ i, s.Owned (id :: stack) i → i ≠ id → s.Owned stack i := by
    intro i h
    induction h with
    | top h => exact fun hne => .top ((List.mem_cons.1 h).resolve_left hne)
    | @child x c _ hc hp ih =>
      intro _
      refine .child (ih ?_) hc hp
      rintro rfl
      simp [hchildren] at hc
  unfold pruned
  congr 1
  refine List.filter_congr fun m hm => ?_
  have hne : m.id ≠ id := by
    rintro rfl
    exact find?_eq_none_iff.1 hid (List.mem_map_of_mem hm)
  have : s.Owned (id :: stack) m.id ↔ s.Owned stack m.id :=
    ⟨fun h => howned _ h hne, fun h => h.mono fun j hj => List.mem_cons_of_mem _ hj⟩
  simp [this]

/-- A turn takes one node and leaves the rest of what is owned to the turns that follow. -/
theorem pruned_of_some (hn : s.find? id = some n) :
    s.pruned (id :: stack) =
      (s.erase id).pruned (n.children.filter (fun c => (s.erase id).parent? c = some id) ++ stack) := by
  unfold pruned erase
  simp only [List.filter_filter]
  congr 1
  refine List.filter_congr fun m _ => ?_
  have howned : s.Owned (id :: stack) m.id ↔ _ := owned_cons_iff hn
  by_cases hid : m.id = id <;> simp_all [erase]

/-- What is discarded is what is owned. -/
theorem discardAll_eq (s : Store) (stack : List NodeId) : s.discardAll stack = s.pruned stack := by
  fun_induction Store.discardAll s stack with
  | case1 s => exact pruned_nil.symm
  | case2 s id stack hid ih => rw [ih, pruned_of_none hid]
  | case3 s id stack n hn rest ih => rw [ih, pruned_of_some hn]

/-- The loop ends on every store, within as many turns as there are links and nodes on the stack, and one. -/
theorem loopEnds_discard (turns : Nat) (s : Store) (stack : List NodeId)
    (hturns : linkCount s.nodes + stack.length < turns) :
    LoopEnds discardTurn turns (s, stack) (s.discardAll stack) := by
  rw [discardAll_eq]
  induction turns generalizing s stack with
  | zero => omega
  | succ turns ih =>
    cases stack with
    | nil =>
      rw [pruned_nil]
      exact .stop rfl
    | cons id stack =>
      rw [List.length_cons] at hturns
      cases hn : s.find? id with
      | none =>
        rw [pruned_of_none hn]
        exact .next (by simp only [discardTurn, hn]) (ih s stack (by omega))
      | some n =>
        have hlinks := linkCount_erase_le hn
        have hpushed := List.length_filter_le (fun c => (s.erase id).parent? c = some id) n.children
        have horder : (s.erase id).pruned (n.children.filter (fun c => (s.erase id).parent? c = some id) ++
            stack) =
            (s.erase id).pruned ((n.children.filter fun c => (s.erase id).parent? c = some id).reverse ++ stack) :=
          pruned_congr fun j => by simp
        rw [pruned_of_some hn, horder]
        refine .next (by simp only [discardTurn, hn]) (ih _ _ ?_)
        simp only [List.length_append, List.length_reverse]
        omega

end Store

namespace Edit

/-- **A discard removes exactly the owned part.** However the links go, the loop of a discard ends. When the
discard succeeds, the identities that are gone are the least set with the node itself and, with each member, every
child that it lists and whose parent it is; all other nodes are as they were, in their order, and so are the
counter and the record of replacements. -/
theorem discard_removes (s : Store) (id : NodeId) :
    LoopEnds Store.discardTurn (Store.linkCount s.nodes + 2) (s, [id]) (s.discardAll [id]) ∧
      ∀ s', discard id s = .ok () s' →
        s' = s.discardAll [id] ∧
        IsLeast {S : Set NodeId | id ∈ S ∧ ∀ x ∈ S, ∀ c ∈ s.children x, s.parent? c = some x → c ∈ S}
          {i | i ∈ s.ids ∧ i ∉ s'.ids} ∧
        s'.nodes = s.nodes.filter (fun n => n.id ∈ s'.ids) ∧ s'.nextId = s.nextId ∧
        s'.replacements = s.replacements := by
  classical
  refine ⟨Store.loopEnds_discard _ s [id] (by simp), fun s' h => ?_⟩
  obtain ⟨hfree, hs'⟩ := ends_discard.of_ok h
  have hpruned : s' = s.pruned [id] := by rw [hs', Store.discardAll_eq]
  have hmem : ∀ i, i ∈ s'.ids ↔ i ∈ s.ids ∧ ¬ s.Owned [id] i := by
    intro i
    rw [hpruned, Store.ids, Store.ids, List.mem_map, List.mem_map]
    constructor
    · rintro ⟨n, hn, rfl⟩
      rw [Store.pruned, List.mem_filter] at hn
      exact ⟨⟨n, hn.1, rfl⟩, by simpa using hn.2⟩
    · rintro ⟨⟨n, hn, rfl⟩, howned⟩
      exact ⟨n, List.mem_filter.2 ⟨hn, by simpa using howned⟩, rfl⟩
  have hregistered : ∀ i, s.Owned [id] i → i ∈ s.ids := by
    rintro i (htop | ⟨_, _, hp⟩)
    · exact List.mem_singleton.1 htop ▸ hfree.1
    · obtain ⟨n, hn, -⟩ := Option.bind_eq_some_iff.1 hp
      exact Store.mem_ids_of_find? hn
  have hremoved : ∀ i, i ∈ s.ids ∧ i ∉ s'.ids ↔ s.Owned [id] i := by
    intro i
    rw [hmem]
    have := hregistered i
    tauto
  refine ⟨hs', ⟨⟨?_, ?_⟩, ?_⟩, ?_, ?_, ?_⟩
  · exact (hremoved id).2 (.top (by simp))
  · intro x hx c hc hp
    exact (hremoved c).2 (.child ((hremoved x).1 hx) hc hp)
  · rintro S ⟨hid, hclosed⟩ i hi
    induction (hremoved i).1 hi with
    | top h => exact List.mem_singleton.1 h ▸ hid
    | child hx hc hp ih => exact hclosed _ (ih ((hremoved _).2 hx)) _ hc hp
  · rw [show s'.nodes = s.nodes.filter fun n => ¬ s.Owned [id] n.id by rw [hpruned]; rfl]
    refine List.filter_congr fun n hn => ?_
    have hn' : n.id ∈ s.ids := List.mem_map_of_mem hn
    simp [hmem, hn']
  · rw [hpruned]; rfl
  · rw [hpruned]; rfl

/-- A call with a child that is listed twice, one that another node has adopted, one that lists itself and one that
is not registered, and below it a node that lists its own owner. -/
def snarled : Store where
  nextId := ⟨7⟩
  nodes := [
    { id := ⟨0⟩, kind := .call ⟨1⟩ [⟨1⟩, ⟨2⟩, ⟨3⟩, ⟨9⟩] },
    { id := ⟨1⟩, parent := some ⟨0⟩, kind := .subscript ⟨4⟩ ⟨0⟩ },
    { id := ⟨2⟩, parent := some ⟨5⟩, kind := .name "kept" },
    { id := ⟨3⟩, parent := some ⟨0⟩, kind := .member ⟨3⟩ "x" },
    { id := ⟨4⟩, parent := some ⟨1⟩, kind := .unaryOp .not ⟨1⟩ },
    { id := ⟨5⟩, kind := .exprStmt ⟨2⟩ },
    { id := ⟨6⟩, kind := .name "apart" }]

theorem discard_removes_snarled :
    ∃ s', discard ⟨0⟩ snarled = .ok () s' ∧ s'.ids = [⟨2⟩, ⟨5⟩, ⟨6⟩] ∧
      IsLeast {S : Set NodeId | ⟨0⟩ ∈ S ∧ ∀ x ∈ S, ∀ c ∈ snarled.children x, snarled.parent? c = some x → c ∈ S}
        {i | i ∈ snarled.ids ∧ i ∉ s'.ids} := by
  have h : ∃ s', discard ⟨0⟩ snarled = .ok () s' ∧ s'.ids = [⟨2⟩, ⟨5⟩, ⟨6⟩] := by decide +kernel
  obtain ⟨s', hok, hids⟩ := h
  exact ⟨s', hok, hids, ((discard_removes snarled ⟨0⟩).2 s' hok).2.1⟩

end Edit

end ContractTree
