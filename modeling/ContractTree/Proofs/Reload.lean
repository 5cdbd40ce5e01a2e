import ContractTree.Proofs.Nesting
import ContractTree.Proofs.Persistence
import ContractTree.Proofs.Traced

/-!
What the pass writes can be loaded again, with one exception. A slot is nested deeper than the type a variable was
declared with, by up to two levels of objects (`Ty.depth_slot_le`), so a declaration that the reader has just
accepted may become one that it refuses (`Lowering.run_unreadable`). Nothing else goes wrong: the pass writes no
type that is nested deeper than those of the source and the slots of its declarations (`Store.Written.depth_le`),
and a tree with readable types is read back as it was written (`Lowering.run_reloads`).
-/

namespace ContractTree

namespace Ty

variable {t key : Ty} {keys : List Ty}

theorem itemsDepth_toJsonList_le_iff {n : Nat} :
    Json.itemsDepth (toJsonList keys) ≤ n ↔ ∀ key ∈ keys, key.toJson.depth ≤ n := by
  induction keys with
  | nil => simp [toJsonList, Json.itemsDepth]
  | cons key keys ih => rw [toJsonList, Json.itemsDepth, Nat.max_le, ih, List.forall_mem_cons]

theorem depth_levelKeys_lt (t : Ty) : ∀ key ∈ t.levelKeys, key.toJson.depth < t.toJson.depth := by
  induction t using levelKeys.induct with
  | case1 key value ih =>
    rw [levelKeys, depth_mapping, List.forall_mem_cons]
    exact ⟨by omega, fun k hk => by have := ih k hk; omega⟩
  | case2 t ht =>
    rw [levelKeys.eq_2 t ht]
    simp

theorem depth_levelValue_le (t : Ty) : t.levelValue.toJson.depth ≤ t.toJson.depth := by
  induction t using levelValue.induct with
  | case1 key value ih =>
    rw [levelValue, depth_mapping]
    omega
  | case2 t ht => rw [levelValue.eq_2 t ht]

/-- The slot of a variable is at most two levels deeper than the type it is declared with, or than a number's. -/
theorem depth_slot_le (t : Ty) : t.slot.toJson.depth ≤ max 1 t.toJson.depth + 2 := by
  have hlevels : (storage t.levelKeys t.levelValue).toJson.depth ≤ max 1 t.toJson.depth + 2 := by
    have hkeys : Json.itemsDepth (toJsonList t.levelKeys) ≤ t.toJson.depth - 1 :=
      itemsDepth_toJsonList_le_iff.2 fun key hkey => Nat.le_sub_one_of_lt (depth_levelKeys_lt t key hkey)
    have hvalue := depth_levelValue_le t
    rw [depth_storage]
    omega
  cases t with
  | storage keys value => exact Nat.le_trans (Nat.le_max_right 1 _) (Nat.le_add_right _ 2)
  | _ => exact hlevels

/-- The bound is met by the slot of a number. -/
example : (uint 256).slot.toJson.depth = max 1 (uint 256).toJson.depth + 2 := by decide +kernel

theorem depth_slotValue_lt (t : Ty) : t.slotValue.toJson.depth < t.slot.toJson.depth := by
  rw [slot, depth_storage]
  omega

theorem depth_slot_slotValue_le (t : Ty) : t.slotValue.slot.toJson.depth ≤ t.slot.toJson.depth := by
  have := depth_slot_le t.slotValue
  rw [slot.eq_1 t, depth_storage]
  omega

theorem itemsDepth_slotKeys_lt (t : Ty) : Json.itemsDepth (toJsonList t.slotKeys) + 2 < t.slot.toJson.depth := by
  rw [slot, depth_storage]
  omega

end Ty

namespace Store

variable {s₀ : Store} {n : Nat} {ty : Ty}

/-- The slots of all declarations of the store are nested no deeper than `n`. -/
def SlotsWithin (s : Store) (n : Nat) : Prop :=
  ∀ d ∈ s.nodes, ∀ t, d.kind.declares? = some t → ∀ ty, d.ty = some ty ∨ s.ty? t = some ty →
    ty.slot.toJson.depth ≤ n

theorem Declared.depth_slot_le (h : s₀.Declared ty) (hslots : s₀.SlotsWithin n) : ty.slot.toJson.depth ≤ n := by
  induction h with
  | decl hd ht hty => exact hslots _ hd _ ht _ (.inl hty)
  | target hd ht hty => exact hslots _ hd _ ht _ (.inr hty)
  | slot _ ih => exact ih
  | value _ ih => exact Nat.le_trans (Ty.depth_slot_slotValue_le _) ih

/-- A type that the pass may write is nested no deeper than the types of the source and the slots of its
declarations. -/
theorem Written.depth_le (h : s₀.Written ty) (hslots : s₀.SlotsWithin n)
    (htypes : ∀ d ∈ s₀.nodes, ∀ ty ∈ d.ty, ty.toJson.depth ≤ n) : ty.toJson.depth ≤ n := by
  cases h with
  | source hd hty => exact htypes _ hd _ hty
  | slot h => exact h.depth_slot_le hslots
  | @value ty h =>
    have := h.depth_slot_le hslots
    have := Ty.depth_slotValue_lt ty
    omega
  | @key ty _ h hk =>
    have := h.depth_slot_le hslots
    have := Ty.itemsDepth_slotKeys_lt ty
    have := Ty.itemsDepth_toJsonList_le_iff.1 (Nat.le_refl _) _ hk
    omega
  | @getter ty params returns _ _ h hp hr =>
    have hslot := h.depth_slot_le hslots
    have hparams : Json.itemsDepth (Ty.toJsonList params) ≤ Json.itemsDepth (Ty.toJsonList ty.slotKeys) :=
      Ty.itemsDepth_toJsonList_le_iff.2 fun p hmem => Ty.itemsDepth_toJsonList_le_iff.1 (Nat.le_refl _) p
      (hp p hmem)
    have hreturns : (Ty.toJsonOption returns).depth ≤ ty.slotValue.toJson.depth := by
      cases returns with
      | none => exact Nat.zero_le _
      | some r => rw [hr r rfl]; exact Nat.le_refl _
    rw [Ty.slot, Ty.depth_storage] at hslot
    rw [Ty.depth_function]
    omega

end Store

namespace Lowering

variable {w w' : Workspace Progress} {m : NodeId}

/-- **What the pass writes can be loaded again.** When the pass has run on a tree that was loaded, the tree it
leaves can be saved. The text is accepted unless a type in it is nested too deep, and then it holds the nodes that
are reached from the module, as they are, and saving them again gives the same text. No type is nested too deep if
no slot of a variable that the source declares is. -/
theorem run_reloads {text : String} (hload : Document.load text = .ok (w.store, m)) (hrun : run m w = .ok () w') :
    ∃ out s', Document.save w'.store m = .ok out ∧ s'.nodes = w'.store.preorder m ∧ Document.save s' m = .ok out ∧
      Document.load out = (if ∀ n ∈ w'.store.preorder m, ∀ ty ∈ n.ty, ty.toJson.depth ≤ 124 then .ok (s', m)
        else .error .unreadable) ∧
      (w.store.SlotsWithin 124 → Document.load out = .ok (s', m)) := by
  obtain ⟨hs, hv, d, hd, hnodes⟩ := Document.exists_of_load hload
  obtain ⟨⟨hs', T, rfl, hf, hn, hT⟩, htraced⟩ := run_traced hs hv hrun
  have htext := Document.load_text hf hn fun i hi => hs'.below i (hT.mem_ids hi)
  rw [hT.preorder_eq hf hn]
  refine ⟨_, .ofTree T w'.store.nextId, Document.save_eq hT hf hn, rfl,
    Document.save_eq (Store.holds_ofTree hn) hf hn, htext,
    fun hslots => htext.trans (if_pos fun n hmem ty hty => ?_)⟩
  exact (htraced.typed.types (hT n hmem) hty).depth_le hslots (hnodes ▸ Document.depth_of_parse? hd)

/-- A contract that only declares a state variable. The type may stand on the target as well. -/
def declaring (isPublic : Bool) (ty : Ty) (target : Option Ty) : Tree :=
  .node ⟨0⟩ none .module [] [
    .node ⟨1⟩ (some ty) (.variableDecl isPublic false false) [.leaf ⟨2⟩ target (.name "x")] [] []] []

theorem fits_declaring (isPublic : Bool) (ty : Ty) (target : Option Ty) : (declaring isPublic ty target).Fits := by
  simp [declaring, Tree.leaf, Tree.Fits, Tree.FitsAll, Label.Fits]

theorem load_declaring (isPublic : Bool) (ty : Ty) (target : Option Ty) :
    Document.load (Document.ofTree (declaring isPublic ty target) ⟨3⟩).text =
      if ty.toJson.depth ≤ 124 ∧ ∀ u ∈ target, u.toJson.depth ≤ 124 then
        .ok (.ofTree (declaring isPublic ty target) ⟨3⟩, ⟨0⟩) else .error .unreadable := by
  have hids : (declaring false .bool none).ids.Nodup ∧ ∀ i ∈ (declaring false .bool none).ids, i < ⟨3⟩ := by decide
  rw [Document.load_text (fits_declaring isPublic ty target) hids.1 hids.2]
  simp [declaring, Tree.leaf, Tree.nodes, Tree.nodesAll, Tree.root, Tree.id]

theorem slotsWithin_declaring {isPublic : Bool} {ty : Ty} {n : Nat} (h : ty.slot.toJson.depth ≤ n) :
    (Store.ofTree (declaring isPublic ty none) ⟨3⟩).SlotsWithin n := by
  intro d hd t ht u hu
  simp only [Store.ofTree, declaring, Tree.leaf, Tree.nodes, Tree.nodesAll, Tree.root, List.append_nil,
    List.nil_append, List.mem_cons, List.not_mem_nil, or_false] at hd
  rcases hd with rfl | rfl | rfl
  · cases ht
  · cases ht
    obtain hu | hu := hu <;> cases hu
    exact h
  · cases ht

/-- A public mapping gets a getter, which is read back with the function type that it was given. -/
theorem run_reloads_getter : ∃ w' out s',
    run ⟨0⟩ ⟨.ofTree (declaring true (.mapping .address (.uint 256)) none) ⟨3⟩, {}⟩ = .ok () w' ∧
    s'.nodes[3]?.bind Node.ty = some (.function [.address] (some (.uint 256)) .external .view) ∧
    Document.save w'.store ⟨0⟩ = .ok out ∧ Document.load out = .ok (s', ⟨0⟩) ∧ Document.save s' ⟨0⟩ = .ok out := by
  have hload := (load_declaring true (.mapping .address (.uint 256)) none).trans (if_pos ⟨by decide, by simp⟩)
  have hrun : ∃ w', run ⟨0⟩ ⟨.ofTree (declaring true (.mapping .address (.uint 256)) none) ⟨3⟩, {}⟩ = .ok () w' ∧
      (w'.store.preorder ⟨0⟩)[3]?.bind Node.ty = some (.function [.address] (some (.uint 256)) .external .view) :=
    by decide +kernel
  obtain ⟨w', hw', hnew⟩ := hrun
  obtain ⟨out, s', hsave, hnodes, hagain, -, hok⟩ := run_reloads hload hw'
  exact ⟨w', out, s', hw', hnodes ▸ hnew, hsave, hok (slotsWithin_declaring (by decide)), hagain⟩

/-- Arrays in arrays, `n` deep. -/
def nested : Nat → Ty
  | 0 => .bool
  | n + 1 => .dynArray (nested n) 1

theorem depth_nested (n : Nat) : (nested n).toJson.depth = 2 * n := by
  induction n with
  | zero => rfl
  | succ n ih =>
    rw [nested, Ty.depth_dynArray, ih]
    rfl

theorem run_declaring_array (item : Ty) (bound : UInt64) :
    ∃ own, run ⟨0⟩ ⟨.ofTree (declaring false (.dynArray item bound) none) ⟨3⟩, {}⟩ =
      .ok () ⟨.ofTree (declaring false (Ty.dynArray item bound).slot (some (Ty.dynArray item bound).slot)) ⟨3⟩,
        own⟩ :=
  ⟨_, rfl⟩

/-- A declaration that is just accepted is refused once it is a slot: it is loaded and lowered, and what is written
for it cannot be loaded. -/
theorem run_unreadable : ∃ w' out,
    Document.load (Document.ofTree (declaring false (nested 62) none) ⟨3⟩).text =
      .ok (.ofTree (declaring false (nested 62) none) ⟨3⟩, ⟨0⟩) ∧
    run ⟨0⟩ ⟨.ofTree (declaring false (nested 62) none) ⟨3⟩, {}⟩ = .ok () w' ∧
    Document.save w'.store ⟨0⟩ = .ok out ∧ Document.load out = .error .unreadable := by
  have hdepth : (nested 62).toJson.depth = 124 := depth_nested 62
  have hslot : ¬ (nested 62).slot.toJson.depth ≤ 124 := by
    have : (nested 62).toJson.depth < _ := Ty.depth_slotValue_lt (nested 62)
    omega
  have hload := (load_declaring false (nested 62) none).trans (if_pos ⟨Nat.le_of_eq hdepth, by simp⟩)
  have hagain := (load_declaring false (nested 62).slot (some (nested 62).slot)).trans (if_neg fun h => hslot h.1)
  obtain ⟨own, hrun⟩ := run_declaring_array (nested 61) 1
  refine ⟨_, _, hload, hrun, ?_, hagain⟩
  exact Document.save_eq (Store.holds_ofTree (by decide)) (fits_declaring ..) (by decide)

end Lowering

end ContractTree
