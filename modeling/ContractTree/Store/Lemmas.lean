import ContractTree.Store.Basic

/-!
What the changes of a store do to look-ups. A store is seen through `find?`: each change is characterised by what
`find?` gives afterwards, and by what it does to the list of identities.
-/

namespace ContractTree.Store

variable {s : Store} {n m : Node} {id : NodeId}

theorem id_of_find? (h : s.find? id = some n) : n.id = id := by
  simpa using List.find?_some h

theorem mem_of_find? (h : s.find? id = some n) : n ∈ s.nodes := List.mem_of_find?_eq_some h

theorem find?_eq_none_iff : s.find? id = none ↔ id ∉ s.ids := by
  simp [find?, ids]

theorem contains_iff : s.contains id = true ↔ id ∈ s.ids := by
  rw [contains, ← Decidable.not_iff_not, ← find?_eq_none_iff]
  simp

/-- With distinct identities, a registered node is found under its own. -/
theorem find?_of_mem (hs : s.ids.Nodup) (hn : n ∈ s.nodes) : s.find? n.id = some n := by
  obtain ⟨nextId, nodes, replacements⟩ := s
  simp only [ids, find?] at hs hn ⊢
  induction nodes with
  | nil => simp at hn
  | cons m ms ih =>
    rw [List.map_cons, List.nodup_cons] at hs
    rcases List.mem_cons.1 hn with rfl | hn
    · simp
    · have hne : m.id ≠ n.id := fun h => hs.1 (h ▸ List.mem_map_of_mem hn)
      simpa [hne] using ih hs.2 hn

/-! ## A new node -/

@[simp] theorem ids_push : (s.push n).ids = s.ids ++ [n.id] := by simp [ids, push]

theorem find?_push : (s.push n).find? id = (s.find? id).or (if n.id = id then some n else none) := by
  by_cases h : n.id = id <;> simp [find?, push, List.find?_append, h]

/-! ## A changed node -/

/-- A change that keeps identities keeps their order. -/
theorem ids_update {f : Node → Node} (hf : ∀ m, (f m).id = m.id) (i : NodeId) :
    (s.update i f).ids = s.ids := by
  simp only [ids, update, List.map_map]
  apply List.map_congr_left
  intro m _
  by_cases h : m.id = i <;> simp [h, hf]

/-- Look-ups after a change of every node that keeps identities. -/
theorem find?_nodes_map {f : Node → Node} (hf : ∀ m, (f m).id = m.id) (l : List Node) :
    (l.map f).find? (·.id = id) = (l.find? (·.id = id)).map f := by
  rw [List.find?_map]
  congr 2
  funext m
  simp [hf]

/-- A change that keeps identities changes the node it is for, and no other. -/
theorem find?_update {f : Node → Node} (hf : ∀ m, (f m).id = m.id) (i : NodeId) :
    (s.update i f).find? id = (s.find? id).map fun m => if id = i then f m else m := by
  rw [find?, update, find?_nodes_map fun m => by by_cases h : m.id = i <;> simp [h, hf]]
  apply Option.map_congr
  intro m hm
  rw [id_of_find? hm]

theorem find?_setParent (i : NodeId) (p : Option NodeId) :
    (s.setParent i p).find? id = (s.find? id).map fun m => if id = i then { m with parent := p } else m := by
  rw [setParent, find?_update]
  intro m
  rfl

theorem find?_setKind (i : NodeId) (k : Kind) :
    (s.setKind i k).find? id = (s.find? id).map fun m => if id = i then { m with kind := k } else m := by
  rw [setKind, find?_update]
  intro m
  rfl

theorem find?_setTy (i : NodeId) (t : Option Ty) :
    (s.setTy i t).find? id = (s.find? id).map fun m => if id = i then { m with ty := t } else m := by
  rw [setTy, find?_update]
  intro m
  rfl

theorem find?_adopt (owner : NodeId) (ids : List NodeId) :
    (s.adopt owner ids).find? id =
      (s.find? id).map fun m => if id ∈ ids then { m with parent := some owner } else m := by
  rw [find?, adopt, find?_nodes_map fun m => by by_cases h : m.id ∈ ids <;> simp [h]]
  apply Option.map_congr
  intro m hm
  rw [id_of_find? hm]

/-! ## A removed node -/

theorem ids_erase (i : NodeId) : (s.erase i).ids = s.ids.filter (· ≠ i) := by
  simp [ids, erase, List.filter_map, Function.comp_def]

theorem find?_erase (i : NodeId) : (s.erase i).find? id = if id = i then none else s.find? id := by
  rw [find?, erase, List.find?_filter]
  by_cases h : id = i
  · rw [if_pos h, List.find?_eq_none]
    intro m _ hm
    simp only [decide_not, Bool.not_eq_true', decide_eq_false_iff_not, decide_eq_true_eq] at hm
    exact hm.1 (hm.2.trans h)
  · rw [if_neg h, find?]
    congr 1
    funext m
    by_cases hm : m.id = id <;> simp [hm, h]

/-! ## Replacements -/

theorem replacedBy?_recordReplacement (old new : NodeId) :
    (s.recordReplacement old new).replacedBy? id = if id = old then some new else s.replacedBy? id := by
  simp only [replacedBy?, recordReplacement]
  by_cases h : id = old
  · simp [h, List.lookup_cons_self]
  · rw [if_neg h, List.lookup_cons, beq_false_of_ne h]
    change List.lookup id (s.replacements.filter (·.1 ≠ old)) = List.lookup id s.replacements
    induction s.replacements with
    | nil => rfl
    | cons r rs ih =>
      by_cases hr : r.1 = old
      · rw [List.filter_cons_of_neg (by simp [hr]), ih, List.lookup_cons, beq_false_of_ne (hr ▸ h)]
      · rw [List.filter_cons_of_pos (by simp [hr]), List.lookup_cons, List.lookup_cons, ih]

end ContractTree.Store
