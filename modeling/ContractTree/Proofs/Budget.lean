import ContractTree.Proofs.Calls
import ContractTree.Proofs.Traced
import Mathlib.Algebra.Group.Action.Defs
import Mathlib.Data.List.MinMax

/-!
How many identities a run of the pass hands out. Every step pays for the nodes that it makes with a node that was
there at first: a read or a write takes one out of the store, and a declaration gets the type of a slot, which it
keeps. What is left to pay with is `Store.stake`. The work of the pass is followed edit by edit with a credit
(`Lower.Spends`): a new node costs one, and what is paid with gives as much as the dearest step costs. So the
number of identities that a run hands out is bounded by the size of the store and the number of keys in its types
(`Lowering.run_budget`), whether it succeeds or fails.
-/

namespace ContractTree

open Edit (Primitive)
open Lowering (Progress)

/-! ## Keys in types -/

namespace Ty

theorem breadth_levelValue_le (t : Ty) : t.levelValue.breadth ≤ t.breadth := by
  induction t using levelValue.induct with
  | case1 key value ih => exact ih.trans (le_max_right _ _)
  | case2 t h =>
    have hself : t.levelValue = t := by
      cases t with
      | mapping key value => exact absurd rfl (h key value)
      | _ => rfl
    rw [hself]

theorem breadth_slotValue_le (t : Ty) : t.slotValue.breadth ≤ t.breadth := by
  cases t with
  | storage keys value => exact le_max_right _ _
  | _ => exact breadth_levelValue_le _

theorem breadth_slot_le (t : Ty) : t.slot.breadth ≤ t.breadth :=
  max_le t.keyDepth_le_breadth t.breadth_slotValue_le

end Ty

namespace Store

variable {s s₀ : Store} {ty : Ty}

/-- The greatest number of keys in a type of the store. -/
def breadth (s : Store) : Nat := (s.nodes.map fun n => (n.ty.map Ty.breadth).getD 0).foldr max 0

theorem breadth_le {n : Node} (hn : n ∈ s.nodes) (hty : n.ty = some ty) : ty.breadth ≤ s.breadth :=
  List.le_max_of_le' 0 (List.mem_map.2 ⟨n, hn, rfl⟩) (by simp [hty])

/-- The types with which variables are declared have no more keys than the types of the store. -/
theorem Declared.breadth_le (h : s₀.Declared ty) : ty.breadth ≤ s₀.breadth := by
  induction h with
  | decl hn _ hty => exact Store.breadth_le hn hty
  | target _ _ hty =>
    obtain ⟨k, hk, hty⟩ := Option.bind_eq_some_iff.1 hty
    exact Store.breadth_le (mem_of_find? hk) hty
  | slot _ ih => exact (Ty.breadth_slot_le _).trans ih
  | value _ ih => exact (Ty.breadth_slotValue_le _).trans ih

theorem Declared.depth_le {v : StorageVar} (h : s₀.Declared v.declared) : v.depth ≤ s₀.breadth :=
  (Ty.keyDepth_le_breadth _).trans h.breadth_le

end Store

/-! ## What there is to pay with -/

/-- What a node can pay for: it can be taken out of the store, and before that get the type of a slot. Only nodes
below `bound` count. -/
def Node.stake (bound : NodeId) (n : Node) : Nat := if n.id < bound then if n.ty.any Ty.isSlot then 1 else 2 else 0

namespace Node

variable {bound : NodeId} {m n : Node}

theorem stake_of_le (h : bound ≤ n.id) : n.stake bound = 0 := if_neg (Nat.not_lt.2 h)

/-- A change of a node keeps what it can pay for, unless a type of a slot is lost. -/
theorem stake_le (hid : m.id = n.id) (hty : n.ty.any Ty.isSlot = true → m.ty.any Ty.isSlot = true) :
    m.stake bound ≤ n.stake bound := by
  unfold stake
  rw [hid]
  by_cases hslot : n.ty.any Ty.isSlot = true
  · rw [if_pos hslot, if_pos (hty hslot)]
  · rw [if_neg hslot]
    split_ifs <;> decide

end Node

namespace Store

variable {s : Store} {bound i : NodeId} {n : Node}

def stake (s : Store) (bound : NodeId) : Nat := (s.nodes.map (Node.stake bound)).sum

theorem stake_le_size : s.stake bound ≤ 2 * s.size := by
  have hnode : ∀ m ∈ s.nodes.map (Node.stake bound), m ≤ 2 := by
    intro m hm
    obtain ⟨n, -, rfl⟩ := List.mem_map.1 hm
    unfold Node.stake
    split_ifs <;> omega
  have hsum := List.sum_le_card_nsmul _ _ hnode
  rw [List.length_map, smul_eq_mul, Nat.mul_comm] at hsum
  exact hsum

theorem stake_added (h : bound ≤ n.id) : (s.added n).stake bound = s.stake bound := by
  simp [stake, added, Node.stake_of_le h]

theorem stake_update_le {f : Node → Node} (h : ∀ m, m.id = i → (f m).stake bound ≤ m.stake bound) :
    (s.update i f).stake bound ≤ s.stake bound := by
  rw [stake, update, List.map_map]
  refine List.sum_le_sum fun m _ => ?_
  rw [Function.comp_apply]
  split_ifs with hi
  · exact h m hi
  · exact Nat.le_refl _

theorem stake_adopt (owner : NodeId) (l : List NodeId) : (s.adopt owner l).stake bound = s.stake bound := by
  rw [stake, adopt, List.map_map, stake]
  refine congrArg List.sum (List.map_congr_left fun m _ => ?_)
  rw [Function.comp_apply]
  split_ifs <;> rfl

theorem stake_setParent_le (p : Option NodeId) : (s.setParent i p).stake bound ≤ s.stake bound :=
  stake_update_le fun _ _ => Node.stake_le rfl fun h => h

theorem stake_placed_le (p : NodeId) (k : Kind) (new : NodeId) : (s.placed p k new).stake bound ≤ s.stake bound :=
  (stake_setParent_le _).trans (stake_update_le fun _ _ => Node.stake_le rfl fun h => h)

theorem stake_setTy_le {ty : Option Ty} (h : ty.any Ty.isSlot = true ∨ bound ≤ i) :
    (s.setTy i ty).stake bound ≤ s.stake bound := by
  refine stake_update_le fun m hm => ?_
  rcases h with hty | hi
  · exact Node.stake_le rfl fun _ => hty
  · rw [Node.stake_of_le (by rwa [hm])]
    exact Nat.zero_le _

/-- A node that gets the type of a slot pays with it. -/
theorem stake_setTy_lt {ty : Option Ty} (hn : s.find? i = some n) (hi : i < bound)
    (hno : n.ty.any Ty.isSlot = false) (hty : ty.any Ty.isSlot = true) :
    (s.setTy i ty).stake bound < s.stake bound := by
  have hid := id_of_find? hn
  rw [stake, setTy, update, List.map_map]
  refine List.sum_lt_sum _ _ (fun m _ => ?_) ⟨n, mem_of_find? hn, ?_⟩
  · rw [Function.comp_apply]
    split_ifs with hm
    · exact Node.stake_le rfl fun _ => hty
    · exact Nat.le_refl _
  · rw [Function.comp_apply, if_pos hid, Node.stake, Node.stake, hid, if_pos hi, if_pos hi, hno, hty]
    decide

/-- What is taken out is what the stake loses. -/
theorem stake_erase_add (hn : n ∈ s.nodes) (hid : n.id = i) :
    (s.erase i).stake bound + n.stake bound ≤ s.stake bound := by
  have hperm := ((List.filter_append_perm (fun m : Node => m.id ≠ i) s.nodes).map (Node.stake bound)).sum_eq
  rw [List.map_append, List.sum_append] at hperm
  rw [stake, stake, ← hperm]
  refine Nat.add_le_add_left (List.le_sum_of_mem (List.mem_map_of_mem ?_)) _
  simpa [hn] using hid

theorem stake_erase_le : (s.erase i).stake bound ≤ s.stake bound :=
  (List.filter_sublist.map _).sum_le_sum fun _ _ => Nat.zero_le _

theorem stake_discardAll_le (stack : List NodeId) : (s.discardAll stack).stake bound ≤ s.stake bound := by
  fun_induction Store.discardAll s stack with
  | case1 s => exact Nat.le_refl _
  | case2 s i stack _ ih => exact ih
  | case3 s i stack n _ rest ih => exact ih.trans stake_erase_le

/-- A node that is taken out of the store pays with that. -/
theorem stake_discardAll_lt (hi : i ∈ s.ids) (hlt : i < bound) :
    (s.discardAll [i]).stake bound < s.stake bound := by
  obtain ⟨n, hn⟩ := Option.isSome_iff_exists.1 (contains_iff.2 hi)
  have hid := id_of_find? hn
  have hpos : 0 < n.stake bound := by
    rw [Node.stake, hid, if_pos hlt]
    split_ifs <;> decide
  have herase : (s.erase i).stake bound + n.stake bound ≤ s.stake bound := stake_erase_add (mem_of_find? hn) hid
  rw [discardAll]
  split
  · next hnone =>
    rw [hn] at hnone
    cases hnone
  · exact Nat.lt_of_le_of_lt (stake_discardAll_le _) (by omega)

end Store

/-! ## The credit -/

/-- Whether a node with this label can start a step of the pass, whatever is below it. The pass makes no such node.
-/
def Label.isSource : Label → Bool
  | .member _ | .subscript | .augAssign _ | .variableDecl _ _ _ => true
  | _ => false

theorem Label.isSource_of_isPlace {l : Label} (h : l.isPlace = true) (hname : ∀ x, l ≠ .name x) :
    l.isSource = true := by
  cases l with
  | name x => exact absurd rfl (hname x)
  | member | subscript => rfl
  | _ => cases h

namespace Store

/-- The store, which was `s₀` at first, can afford `k` new nodes, and after them whatever the stake pays for,
`cost` for each part of it, without a counter above `limit`. No node that was made can start a step. -/
structure Affords (s₀ : Store) (cost limit k : Nat) (s : Store) : Prop where
  sound : s.Sound
  next : s₀.nextId ≤ s.nextId
  made : ∀ {i n}, s.find? i = some n → s₀.nextId ≤ i → n.kind.label.isSource = false
  credit : s.nextId.toNat + cost * s.stake s₀.nextId + k ≤ limit

namespace Affords

variable {s₀ s s' : Store} {cost limit j k : Nat} {i : NodeId} {n : Node}

theorem mono (h : s₀.Affords cost limit k s) (hj : j ≤ k) : s₀.Affords cost limit j s :=
  { h with credit := (Nat.add_le_add_left hj _).trans h.credit }

theorem nextId_le (h : s₀.Affords cost limit k s) : s.nextId.toNat ≤ limit :=
  ((Nat.le_add_right _ _).trans (Nat.le_add_right _ _)).trans h.credit

/-- A node that can start a step was there at first. -/
theorem lt_of_isSource (h : s₀.Affords cost limit k s) (hn : s.find? i = some n)
    (hl : n.kind.label.isSource = true) : i < s₀.nextId := by
  by_contra hi
  rw [h.made hn (Nat.not_lt.1 hi)] at hl
  cases hl

/-- A change of the nodes that leaves each of them its label. -/
theorem change (h : s₀.Affords cost limit k s) (hs : s'.Sound) (hnext : s'.nextId = s.nextId)
    (hlabel : ∀ {i n'}, s'.find? i = some n' → ∃ n, s.find? i = some n ∧ n'.kind.label = n.kind.label)
    (hstake : cost * s'.stake s₀.nextId + j ≤ cost * s.stake s₀.nextId + k) : s₀.Affords cost limit j s' where
  sound := hs
  next := hnext ▸ h.next
  made hn' hi := by
    obtain ⟨n, hn, hl⟩ := hlabel hn'
    rw [hl]
    exact h.made hn hi
  credit := by
    have hcredit := h.credit
    rw [hnext]
    omega

/-- A new node costs one. -/
theorem added (h : s₀.Affords cost limit (k + 1) s) (hlt : s.nextId.next?.isSome) (hid : n.id = s.nextId)
    (hl : n.kind.label.isSource = false) : s₀.Affords cost limit k (s.added n) where
  sound := h.sound.added hid hlt
  next := h.next.trans (Nat.le_of_lt (nextId_lt_added hlt))
  made {i n'} hn' hi := by
    rw [find?_added h.sound hid] at hn'
    split_ifs at hn'
    · cases hn'
      exact hl
    · exact h.made hn' hi
  credit := by
    obtain ⟨next, hnext⟩ := Option.isSome_iff_exists.1 hlt
    obtain ⟨hval, hnat⟩ := NodeId.next?_eq_some hnext
    have hcredit := h.credit
    have hcounter : (s.added n).nextId.toNat = s.nextId.toNat + 1 := by rw [← hnat, hval]; rfl
    rw [stake_added (hid ▸ h.next), hcounter]
    omega

theorem adopt (h : s₀.Affords cost limit k s) (owner : NodeId) (l : List NodeId) :
    s₀.Affords cost limit k (s.adopt owner l) := by
  refine h.change (h.sound.of_ids (by simp) rfl rfl) rfl (fun {i n'} hn' => ?_) (by rw [stake_adopt])
  rw [find?_adopt] at hn'
  obtain ⟨n, hn, rfl⟩ := Option.map_eq_some_iff.1 hn'
  exact ⟨n, hn, by split_ifs <;> rfl⟩

theorem placed {p : NodeId} {m : Node} {c : Kind} (h : s₀.Affords cost limit k s) (hm : s.find? p = some m)
    (hl : c.label = m.kind.label) (new : NodeId) : s₀.Affords cost limit k (s.placed p c new) := by
  refine h.change (h.sound.of_ids (by simp) rfl rfl) rfl (fun {i n'} hn' => ?_)
    (Nat.add_le_add_right (Nat.mul_le_mul_left _ (stake_placed_le _ _ _)) _)
  rw [find?_placed] at hn'
  obtain ⟨n, hn, rfl⟩ := Option.map_eq_some_iff.1 hn'
  refine ⟨n, hn, ?_⟩
  dsimp only
  split_ifs with hi
  · obtain rfl := Option.some.inj (hm.symm.trans (hi ▸ hn))
    exact hl
  · rfl

/-- A change of nodes that leaves them what they are. -/
theorem update {f : Node → Node} (h : s₀.Affords cost limit k s) (hid : ∀ m, (f m).id = m.id)
    (hk : ∀ m, (f m).kind = m.kind) (hstake : cost * (s.update i f).stake s₀.nextId + j ≤
      cost * s.stake s₀.nextId + k) :
    s₀.Affords cost limit j (s.update i f) := by
  refine h.change (h.sound.of_ids (ids_update hid i) rfl rfl) rfl (fun {i n'} hn' => ?_) hstake
  rw [find?_update hid] at hn'
  obtain ⟨n, hn, rfl⟩ := Option.map_eq_some_iff.1 hn'
  exact ⟨n, hn, by split_ifs <;> simp [hk]⟩

theorem swapped {p old new : NodeId} {m : Node} {c : Kind} (h : s₀.Affords cost limit k s) (hold : old ∈ s.ids)
    (hm : s.find? p = some m) (hl : c.label = m.kind.label) : s₀.Affords cost limit k (s.swapped p c old new) := by
  have hleft := (h.placed hm hl new).update (f := fun n => { n with parent := none }) (i := old) (fun _ => rfl)
    (fun _ => rfl) (Nat.add_le_add_right (Nat.mul_le_mul_left _ (stake_setParent_le none)) _)
  exact ⟨h.sound.swapped hold, hleft.next, hleft.made, hleft.credit⟩

theorem discardAll (h : s₀.Affords cost limit k s) (stack : List NodeId) :
    s₀.Affords cost limit k (s.discardAll stack) := by
  fun_induction Store.discardAll s stack with
  | case1 s => exact h
  | case2 s i stack _ ih => exact ih h
  | case3 s i stack n _ rest ih =>
    refine ih (h.change (h.sound.erase i) rfl (fun {j n'} hn' => ?_)
      (Nat.add_le_add_right (Nat.mul_le_mul_left _ stake_erase_le) _))
    rw [find?_erase] at hn'
    split_ifs at hn'
    exact ⟨n', hn', rfl⟩

/-- A part of the stake pays for a step. -/
theorem pay (h : s₀.Affords cost limit k s) (hnext : s'.nextId = s.nextId)
    (hlt : s'.stake s₀.nextId < s.stake s₀.nextId) (h' : s₀.Affords cost limit k s') :
    s₀.Affords cost limit (k + cost) s' := by
  have hcredit := h.credit
  have hpaid : cost * s'.stake s₀.nextId + cost ≤ cost * s.stake s₀.nextId := Nat.mul_le_mul_left cost hlt
  refine { h' with credit := ?_ }
  rw [hnext]
  omega

end Affords

end Store

/-! ## Work on credit -/

/-- Whether the pass may make this call: it makes no node that can start a step, and takes no type of a slot away
from a node that was there at first. -/
def Edit.Primitive.Spare (bound : NodeId) : Primitive → Prop
  | .reserve | .register _ => False
  | .alloc k _ | .leaf k _ => k.label.isSource = false
  | .setTy i ty => ty.any Ty.isSlot = true ∨ bound ≤ i
  | _ => True

theorem Edit.Primitive.Effect.affords {p : Primitive} {s₀ s s' : Store} {cost limit k : Nat} {i : Option NodeId}
    (h : p.Effect s i s') (hp : p.Spare s₀.nextId) (hs : s₀.Affords cost limit (k + p.creates.toNat) s) :
    s₀.Affords cost limit k s' := by
  cases h with
  | reserve | register => cases hp
  | @alloc c ty hlt => exact (hs.added (n := { id := s.nextId, ty, kind := c }) hlt rfl hp).adopt _ _
  | leaf hlt => exact hs.added hlt rfl hp
  | temp hlt => exact hs.added hlt rfl rfl
  | replace hn _ _ hm hk => exact hs.swapped (Store.mem_ids_of_find? hn) hm (Kind.spec_of_replaceChild? hk).1
  | insertBefore _ hb hk => exact hs.placed hb (Kind.spec_of_insertStatement? hk).1 _
  | appendDeclaration _ hb hk => exact hs.placed hb (by rw [hk]; rfl) _
  | discard => exact hs.discardAll _
  | setTy =>
    exact hs.update (fun _ => rfl) (fun _ => rfl)
      (Nat.add_le_add_right (Nat.mul_le_mul_left _ (Store.stake_setTy_le hp)) _)

namespace Lower

variable {α β : Type} {s₀ : Store} {cost limit j k l : Nat} {w : Workspace Progress} {Q : α → Store → Prop}

/-- Work that can be afforded with the credit `j` and leaves the credit `k`, and `Q`, if it succeeds. -/
def Spends (s₀ : Store) (cost limit j : Nat) (x : Lower α) (w : Workspace Progress) (k : Nat)
    (Q : α → Store → Prop) : Prop :=
  s₀.Affords cost limit j w.store → Ends x w (fun a w' => s₀.Affords cost limit k w'.store ∧ Q a w'.store)
    fun _ w' => w'.store.nextId.toNat ≤ limit

theorem Spends.bind {x : Lower α} {f : α → Lower β} {R : β → Store → Prop} (hx : Spends s₀ cost limit j x w k Q)
    (hf : ∀ a w', s₀.Affords cost limit k w'.store → Q a w'.store → Spends s₀ cost limit k (f a) w' l R) :
    Spends s₀ cost limit j (x >>= f) w l R := by
  intro h
  rw [ends_bind]
  exact (hx h).mono (fun a w' ⟨hk, hq⟩ => hf a w' hk hq hk) fun _ _ h => h

theorem Spends.mono {x : Lower α} {R : α → Store → Prop} (hx : Spends s₀ cost limit j x w k Q)
    (h : ∀ a s, Q a s → R a s) :
    Spends s₀ cost limit j x w k R :=
  fun hj => (hx hj).mono (fun a w' hq => ⟨hq.1, h a w'.store hq.2⟩) fun _ _ h => h

/-- More credit does, and less may be left. -/
theorem Spends.of_le {x : Lower α} {j' k' : Nat} (hx : Spends s₀ cost limit j x w k Q) (hj : j ≤ j')
    (hk : k' ≤ k) :
    Spends s₀ cost limit j' x w k' Q :=
  fun h => (hx (h.mono hj)).mono (fun _ _ hq => ⟨hq.1.mono hk, hq.2⟩) fun _ _ h => h

theorem spends_pure {a : α} (h : Q a w.store) : Spends s₀ cost limit k (pure a) w k Q := fun hk => ⟨hk, h⟩

theorem spends_throw {e : PassError} : Spends s₀ cost limit k (throw e) w k Q := fun hk => hk.nextId_le

theorem spends_count (f : Lowering.Stats → Lowering.Stats) :
    Spends s₀ cost limit k (count f) w k fun _ _ => True :=
  fun hk => ⟨hk, trivial⟩

theorem spends_modifyCatalog (f : Catalog → Catalog) :
    Spends s₀ cost limit k (modifyCatalog f) w k fun _ _ => True :=
  fun hk => ⟨hk, trivial⟩

theorem spends_store {f : Store → Lower α} (hf : Spends s₀ cost limit j (f w.store) w k Q) :
    Spends s₀ cost limit j (Work.store >>= f) w k Q := fun hj => store_then.2 (hf hj)

theorem spends_catalog {f : Catalog → Lower α} (hf : Spends s₀ cost limit j (f w.own.catalog) w k Q) :
    Spends s₀ cost limit j (catalog >>= f) w k Q := fun hj => by
  rw [ends_bind]
  exact hf hj

/-- A question to the store and the catalog. -/
theorem spends_ask {q : Store → Catalog → Except LoweringError β} {f : β → Lower α}
    (hf : ∀ b, s₀.Affords cost limit j w.store → q w.store w.own.catalog = .ok b →
      Spends s₀ cost limit j (f b) w k Q) :
    Spends s₀ cost limit j (ask q >>= f) w k Q := by
  intro hj
  unfold ask
  rw [ends_bind, ends_bind, ends_get]
  cases h : q w.store w.own.catalog with
  | ok b => exact hf b hj h hj
  | error e => exact hj.nextId_le

theorem spends_node {i : NodeId} {f : Node → Lower α}
    (hf : ∀ n, s₀.Affords cost limit j w.store → w.store.find? i = some n → Spends s₀ cost limit j (f n) w k Q) :
    Spends s₀ cost limit j (edit (Edit.node i) >>= f) w k Q := fun hj =>
  edit_then Edit.ends_node (fun _ _ => hj.nextId_le) fun n w' hown ⟨hs, hn⟩ => by
    obtain rfl : w' = w := by cases w; cases w'; cases hown; cases hs; rfl
    exact hf n hj hn hj

theorem spends_forM {f : NodeId → Lower Unit} (hf : ∀ i w, Spends s₀ cost limit k (f i) w k fun _ _ => True)
    (l : List NodeId) : Spends s₀ cost limit k (l.forM f) w k fun _ _ => True := by
  induction l generalizing w with
  | nil => exact spends_pure trivial
  | cons i l ih => exact (hf i w).bind fun _ _ _ _ => ih

/-- An edit that is refused without effect. -/
theorem spends_edit {e : Edit α} {X : StructuralError → Prop} {R : α → Store → Prop}
    (he : Ends e w.store R (Refusal w.store X)) (h : s₀.Affords cost limit j w.store → ∀ a s', R a s' →
      s₀.Affords cost limit k s' ∧ Q a s') :
    Spends s₀ cost limit j (edit e) w k Q := by
  intro hj
  unfold Ends at he
  rw [Ends, edit_apply]
  cases hs : e w.store with
  | ok a s' =>
    rw [hs] at he
    exact h hj a s' he
  | error err s' =>
    rw [hs] at he
    obtain ⟨rfl, -⟩ := he
    exact hj.nextId_le

/-- A primitive edit, which hands out only identities that are new. -/
theorem spends_call {e : Edit α} (p : Primitive) (g : α → Option NodeId) (hp : p.Spare s₀.nextId)
    (h : p.run = e >>= fun a => pure (g a)) :
    Spends s₀ cost limit (k + p.creates.toNat) (edit e) w k fun a _ => ∀ i ∈ g a, s₀.nextId ≤ i := by
  have hends : Ends e w.store (fun a s' => p.Effect w.store (g a) s') (Refusal w.store fun _ => True) := by
    have := p.ends_run (s := w.store)
    rw [h, ends_bind] at this
    exact this
  refine spends_edit hends fun hj a s' heffect => ⟨heffect.affords hp hj, fun i hi => ?_⟩
  rcases heffect.counter with ⟨-, hnew, -⟩ | ⟨n, rfl, -⟩ | ⟨-, -, hnone, -⟩
  · obtain rfl : i = w.store.nextId := Option.some.inj (hi.symm.trans hnew)
    exact hj.next
  · cases hp
  · rw [hnone] at hi
    cases hi

/-- Edits that do the same here. -/
theorem Spends.congr {e e' : Edit α} (h : Spends s₀ cost limit j (edit e) w k Q) (he : e' w.store = e w.store) :
    Spends s₀ cost limit j (edit e') w k Q := by
  unfold Spends Ends at h ⊢
  rwa [edit_apply, he, ← edit_apply]

theorem spends_leaf {c : Kind} {ty : Option Ty} (hc : c.label.isSource = false) :
    Spends s₀ cost limit (k + 1) (edit (Edit.leaf c ty)) w k fun _ _ => True :=
  (spends_call (.leaf c ty) some hc rfl).mono fun _ _ _ => trivial

theorem spends_temp {ty : Option Ty} : Spends s₀ cost limit (k + 1) (edit (Edit.temp ty)) w k fun _ _ => True :=
  (spends_call (.temp ty) some trivial rfl).mono fun _ _ _ => trivial

theorem spends_alloc {c : Kind} (ty : Option Ty) (hc : c.label.isSource = false) :
    Spends s₀ cost limit (k + 1) (edit (Edit.alloc c ty)) w k fun i _ => s₀.nextId ≤ i :=
  (spends_call (.alloc c ty) some hc rfl).mono fun i _ h => h i rfl

/-- What a slot is read into or what is stored gives the statement its type. -/
theorem spends_typed {c : Kind} (ty : Store → Option Ty) (hc : c.label.isSource = false) :
    Spends s₀ cost limit (k + 1) (edit (get >>= fun s => Edit.alloc c (ty s))) w k fun i _ => s₀.nextId ≤ i :=
  (spends_alloc (ty w.store) hc).congr rfl

theorem spends_replace (old new : NodeId) : Spends s₀ cost limit k (edit (Edit.replace old new)) w k
    fun _ _ => True :=
  (spends_call (.replace old new) (fun _ => none) trivial rfl).mono fun _ _ _ => trivial

theorem spends_insertBefore (stmt anchor block : NodeId) :
    Spends s₀ cost limit k (edit (Edit.insertBefore stmt anchor block)) w k fun _ _ => True :=
  (spends_call (.insertBefore stmt anchor block) (fun _ => none) trivial rfl).mono fun _ _ _ => trivial

theorem spends_appendDeclaration (module decl : NodeId) :
    Spends s₀ cost limit k (edit (Edit.appendDeclaration module decl)) w k fun _ _ => True :=
  (spends_call (.appendDeclaration module decl) (fun _ => none) trivial rfl).mono fun _ _ _ => trivial

theorem spends_discard (i : NodeId) : Spends s₀ cost limit k (edit (Edit.discard i)) w k fun _ _ => True :=
  (spends_call (.discard i) (fun _ => none) trivial rfl).mono fun _ _ _ => trivial

theorem spends_setSlot (v : StorageVar) (i : NodeId) :
    Spends s₀ cost limit k (edit (Edit.setTy i (some v.slotTy))) w k fun _ _ => True :=
  (spends_call (.setTy i (some v.slotTy)) (fun _ => none) (.inl rfl) rfl).mono fun _ _ _ => trivial

/-- A node that was there at first is taken out. -/
theorem earns_discard {i : NodeId} (hi : i < s₀.nextId) :
    Spends s₀ cost limit k (edit (Edit.discard i)) w (k + cost) fun _ _ => True := by
  refine spends_edit Edit.ends_discard fun hk _ s' ⟨hfree, hs'⟩ => ⟨?_, trivial⟩
  subst hs'
  exact hk.pay (Store.nextId_discardAll _) (Store.stake_discardAll_lt hfree.1 hi) (hk.discardAll _)

/-- A node that was there at first gets the type of a slot. -/
theorem earns_setSlot {i : NodeId} (v : StorageVar) (hi : i < s₀.nextId)
    (hno : (w.store.ty? i).any Ty.isSlot = false) :
    Spends s₀ cost limit k (edit (Edit.setTy i (some v.slotTy))) w (k + cost) fun _ _ => True := by
  refine spends_edit (Edit.ends_setTy _) fun hk _ s' ⟨hmem, hs'⟩ => ⟨?_, trivial⟩
  subst hs'
  obtain ⟨n, hn⟩ := Option.isSome_iff_exists.1 (Store.contains_iff.2 hmem)
  rw [Store.ty?, hn] at hno
  have hset := hk.update (f := fun n => { n with ty := some v.slotTy }) (i := i) (fun _ => rfl) (fun _ => rfl)
    (Nat.add_le_add_right (Nat.mul_le_mul_left _ (Store.stake_setTy_le (.inl rfl))) _)
  exact hk.pay rfl (Store.stake_setTy_lt hn hi hno rfl) hset

/-! ## Reads -/

/-- What reaches a state variable was there at first. -/
theorem top_lt_of_accessAt {s : Store} {c : Catalog} {i : NodeId} {a : Access} (hs : s₀.Affords cost limit k s)
    (h : s.accessAt c i = .ok (some a)) : a.top < s₀.nextId := by
  obtain ⟨rfl, hv⟩ := Store.spec_of_accessAt h
  obtain ⟨n, hn, hplace, hname⟩ := Store.exists_node_of_receiver? hv
  exact hs.lt_of_isSource hn (Label.isSource_of_isPlace hplace hname)

theorem spends_hoist {lowerKey : NodeId → Lower Unit} {a : Access} {site : Site} (hcost : 4 ≤ cost)
    (hkey : ∀ i w, Spends s₀ cost limit cost (lowerKey i) w cost fun _ _ => True) (ha : a.top < s₀.nextId) :
    Spends s₀ cost limit cost (hoist lowerKey a site) w cost fun _ _ => True := by
  unfold hoist
  -- the reads in the keys are paid for with other nodes, so the credit is back when the access itself is lowered
  refine (spends_forM hkey _).bind fun _ w₁ _ _ => ?_
  refine Spends.of_le (j := 4) (k := 0 + cost) ?_ hcost (Nat.zero_add _).ge
  refine spends_store ?_
  refine spends_temp.bind fun temp _ _ _ => ?_
  refine (spends_leaf rfl).bind fun reference _ _ _ => ?_
  refine (spends_replace _ _).bind fun _ _ _ _ => ?_
  refine spends_store ?_
  refine (spends_leaf rfl).bind fun slot _ _ _ => ?_
  refine (spends_typed (fun s => s.ty? temp) rfl).bind fun read _ _ _ => ?_
  refine (spends_insertBefore _ _ _).bind fun _ _ _ _ => ?_
  exact (earns_discard ha).bind fun _ _ _ _ => spends_count _

theorem spends_readsBelow (hcost : 4 ≤ cost) (site : Site) (fuel : Nat) (pick : Kind → Option NodeId)
    (parent : NodeId) : Spends s₀ cost limit cost (readsBelow site fuel pick parent) w cost fun _ _ => True := by
  induction fuel generalizing w pick parent with
  | zero => exact spends_throw
  | succ fuel ih =>
    unfold readsBelow
    refine spends_node fun n _ _ => ?_
    split
    · exact spends_pure trivial
    · refine spends_ask fun r hw hr => ?_
      cases r with
      | none => exact spends_pure trivial
      | some a =>
        obtain ⟨i, hi⟩ := Store.exists_of_firstAccess hr
        refine (spends_hoist hcost (fun i w => ih Kind.slice? i) (top_lt_of_accessAt hw hi)).bind fun _ _ _ _ => ?_
        exact ih pick parent

theorem spends_lowerReadsBelow (hcost : 4 ≤ cost) (site : Site) (pick : Kind → Option NodeId) (parent : NodeId) :
    Spends s₀ cost limit cost (lowerReadsBelow site pick parent) w cost fun _ _ => True :=
  spends_store (spends_readsBelow hcost _ _ pick parent)

theorem spends_lowerReadAt (hcost : 4 ≤ cost) (i : NodeId) :
    Spends s₀ cost limit cost (lowerReadAt i) w cost fun _ _ => True := by
  unfold lowerReadAt
  refine spends_ask fun r hw hr => ?_
  cases r with
  | none => exact spends_pure trivial
  | some a =>
    refine spends_ask fun site _ _ => ?_
    exact spends_hoist hcost (fun i w => spends_lowerReadsBelow hcost site Kind.slice? i)
      (top_lt_of_accessAt hw hr)

/-! ## Writes -/

theorem spends_vacate (stmt : NodeId) : Spends s₀ cost limit (k + 1) (vacate stmt) w k fun _ _ => True :=
  (spends_leaf rfl).bind fun _ _ _ _ => (spends_replace _ _).bind fun _ _ _ _ => spends_pure trivial

theorem spends_lowerOperands (hcost : 4 ≤ cost) (node : NodeId) (a : Access) (site : Site) :
    Spends s₀ cost limit cost (lowerOperands node a site) w cost fun _ _ => True :=
  (spends_lowerReadsBelow hcost _ _ node).bind fun _ _ _ _ =>
    spends_forM (fun i _ => spends_lowerReadsBelow hcost site Kind.slice? i) _

theorem spends_storeValue {node : NodeId} {a : Access} {block value : NodeId} (hnode : node < s₀.nextId) :
    Spends s₀ cost limit (k + 6) (storeValue node a block value) w (k + cost) fun _ _ => True := by
  unfold storeValue
  refine spends_store ?_
  refine (spends_vacate node).bind fun hole _ _ _ => ?_
  refine spends_temp.bind fun temp _ _ _ => ?_
  refine (spends_leaf rfl).bind fun slot _ _ _ => ?_
  refine (spends_alloc _ rfl).bind fun evaluate _ _ _ => ?_
  refine (spends_leaf rfl).bind fun operand _ _ _ => ?_
  refine (spends_typed (fun s => s.ty? operand) rfl).bind fun write _ _ _ => ?_
  refine (spends_replace _ _).bind fun _ _ _ _ => ?_
  refine (spends_insertBefore _ _ _).bind fun _ _ _ _ => ?_
  refine (spends_discard _).bind fun _ _ _ _ => ?_
  exact (earns_discard hnode).bind fun _ _ _ _ => spends_count _

/-- A key is shared with four new nodes at most. -/
theorem spends_shareKey (hole block key : NodeId) :
    Spends s₀ cost limit (k + 4) (shareKey hole block key) w k fun _ _ => True := by
  unfold shareKey
  refine spends_store ?_
  split
  · next hatom =>
    obtain ⟨n, hn, hatom⟩ := Store.exists_atom hatom
    obtain ⟨hl, hchildren⟩ : n.kind.label.isSource = false ∧ n.kind.children = [] := by
      cases hk : n.kind <;> simp [hk, Kind.isAtom] at hatom <;> exact ⟨rfl, rfl⟩
    refine Spends.of_le (j := k + 1) (k := k) ?_ (by omega) (Nat.le_refl _)
    refine ((spends_alloc n.ty hl).congr (Edit.deepCopy_eq_alloc hn hchildren)).bind fun copy _ _ _ => ?_
    exact spends_pure trivial
  · refine spends_temp.bind fun held _ _ _ => ?_
    refine (spends_alloc _ rfl).bind fun bind _ _ _ => ?_
    refine (spends_leaf rfl).bind fun forRead _ _ _ => ?_
    refine (spends_leaf rfl).bind fun forWrite _ _ _ => ?_
    exact (spends_insertBefore _ _ _).bind fun _ _ _ _ => spends_pure trivial

theorem spends_mapM_shareKey (hole block : NodeId) (keys : List NodeId) :
    Spends s₀ cost limit (k + 4 * keys.length) (keys.mapM (shareKey hole block)) w k fun _ _ => True := by
  induction keys generalizing w with
  | nil => exact spends_pure trivial
  | cons key keys ih =>
    rw [List.mapM_cons]
    refine (spends_shareKey (k := k + 4 * keys.length) hole block key).bind fun _ _ _ _ => ?_
    exact ih.bind fun _ _ _ _ => spends_pure trivial

theorem spends_combineValue {node : NodeId} {a : Access} {op : BinOp} {block value : NodeId}
    (hnode : node < s₀.nextId) :
    Spends s₀ cost limit (k + 10 + 4 * a.subscripts.length + 1) (combineValue node a op block value) w (k + cost)
      fun _ _ => True := by
  unfold combineValue
  refine spends_store ?_
  have hkeys : (a.keys w.store).length ≤ a.subscripts.length := List.length_filterMap_le _ _
  refine (spends_vacate node).bind fun hole _ _ _ => ?_
  refine ((spends_mapM_shareKey (k := k + 10) hole block _).of_le (by omega) (Nat.le_refl _)).bind
    fun shared _ _ _ => ?_
  refine spends_temp.bind fun current _ _ _ => ?_
  refine spends_temp.bind fun combined _ _ _ => ?_
  refine (spends_leaf rfl).bind fun readSlot _ _ _ => ?_
  refine (spends_leaf rfl).bind fun writeSlot _ _ _ => ?_
  refine (spends_typed (fun s => s.ty? current) rfl).bind fun read _ _ _ => ?_
  refine (spends_leaf rfl).bind fun currentRef _ _ _ => ?_
  refine (spends_alloc _ rfl).bind fun combination _ _ _ => ?_
  refine (spends_alloc _ rfl).bind fun compute _ _ _ => ?_
  refine (spends_leaf rfl).bind fun combinedRef _ _ _ => ?_
  refine (spends_typed (fun s => s.ty? combinedRef) rfl).bind fun write _ _ _ => ?_
  refine (spends_insertBefore _ _ _).bind fun _ _ _ _ => ?_
  refine (spends_insertBefore _ _ _).bind fun _ _ _ _ => ?_
  refine (spends_replace _ _).bind fun _ _ _ _ => ?_
  refine (spends_discard _).bind fun _ _ _ _ => ?_
  exact (earns_discard hnode).bind fun _ _ _ _ => spends_count _

/-- An assignment to a state variable was there at first, since the ones that are made assign to a temporary. -/
theorem lt_of_assign {c : Catalog} {i target value : NodeId} {n : Node} {a : Access} (ht : s₀.Tidy w.store)
    (hn : w.store.find? i = some n) (hk : n.kind = .assign target value)
    (h : w.store.targetAccess c target = .ok (some a)) : i < s₀.nextId := by
  by_contra hi
  obtain ⟨m, hm, -, hname⟩ := Store.exists_node_of_receiver? (Store.spec_of_targetAccess h).1
  have htemp := ht.bound hn (Nat.not_lt.1 hi) (by rw [hk]; rfl)
  exact hname _ (htemp.named.label hm)

theorem spends_lowerAssign (hcost : 6 ≤ cost) (ht : s₀.Tidy w.store) (node : NodeId) :
    Spends s₀ cost limit cost (lowerAssign node) w cost fun _ _ => True := by
  have hcost' : 4 ≤ cost := by omega
  unfold lowerAssign
  refine spends_node fun n _ hn => ?_
  split
  · next hk =>
    refine spends_ask fun r _ hr => ?_
    split
    · exact spends_pure trivial
    · have hnode := lt_of_assign ht hn hk hr
      refine spends_ask fun site _ _ => ?_
      refine (spends_lowerOperands hcost' node _ site).bind fun _ _ _ _ => ?_
      refine spends_node fun n _ _ => ?_
      split
      · exact spends_pure trivial
      · exact (spends_storeValue (k := 0) hnode).of_le (by omega) (by omega)
  · exact spends_pure trivial

theorem spends_lowerAugAssign (hcost : 4 * s₀.breadth + 11 ≤ cost) (ht : Traced s₀ w) (node : NodeId) :
    Spends s₀ cost limit cost (lowerAugAssign node) w cost fun _ _ => True := by
  have hcost' : 4 ≤ cost := by omega
  unfold lowerAugAssign
  refine spends_node fun n hw hn => ?_
  split
  · next hk =>
    have hnode := hw.lt_of_isSource hn (by rw [hk]; rfl)
    refine spends_ask fun r _ hr => ?_
    split
    · exact spends_pure trivial
    · next a =>
      have hdepth := (ht.catalog _ (Store.mem_of_targetAccess hr)).depth_le
      rw [← (Store.spec_of_targetAccess hr).2] at hdepth
      refine spends_ask fun site _ _ => ?_
      refine (spends_lowerOperands hcost' node _ site).bind fun _ _ _ _ => ?_
      refine spends_node fun n _ _ => ?_
      split
      · exact spends_pure trivial
      · exact (spends_combineValue (k := 0) hnode).of_le (by omega) (by omega)
  · exact spends_pure trivial

/-! ## Declarations -/

theorem spends_getterKeys (i : Nat) (tys : List Ty) :
    Spends s₀ cost limit (k + 2 * tys.length) (getterKeys i tys) w k fun _ _ => True := by
  induction tys generalizing i w with
  | nil => exact spends_pure trivial
  | cons ty tys ih =>
    unfold getterKeys
    refine (spends_leaf (k := k + 2 * tys.length + 1) rfl).bind fun arg _ _ _ => ?_
    refine (spends_leaf rfl).bind fun reference _ _ _ => ?_
    exact (ih (i + 1)).bind fun _ _ _ _ => spends_pure trivial

/-- The type of a node that was made is nothing to pay with. -/
theorem spends_setReturns {i : NodeId} (hi : s₀.nextId ≤ i) (returns : Ty) :
    Spends s₀ cost limit k (edit (Build.setReturns i returns)) w k fun _ _ => True := by
  refine spends_edit (R := fun _ s' => s' = w.store.update i
    fun n => { n with ty := n.ty.map (Build.withReturns returns) })
    (X := fun _ => True) ?_ fun hk _ s' hs' => ⟨?_, trivial⟩
  · exact Edit.ends_node.then (fun _ _ => ⟨rfl, trivial⟩) fun _ _ ⟨hs, _⟩ => hs ▸ rfl
  · subst hs'
    refine hk.update (fun _ => rfl) (fun _ => rfl) (Nat.add_le_add_right (Nat.mul_le_mul_left _ ?_) _)
    refine Store.stake_update_le fun m hm => ?_
    rw [Node.stake_of_le (hm ▸ hi)]
    exact Nat.zero_le _

theorem spends_makeGetter (v : StorageVar) (module : NodeId) :
    Spends s₀ cost limit (k + 4 + 2 * v.depth + 2) (makeGetter v module) w k fun _ _ => True := by
  unfold makeGetter
  refine spends_temp.bind fun temp _ _ _ => ?_
  refine (spends_leaf rfl).bind fun slot _ _ _ => ?_
  refine (spends_getterKeys 0 v.keys).bind fun keys _ _ _ => ?_
  refine (spends_typed (fun s => s.ty? temp) rfl).bind fun read _ _ _ => ?_
  refine (spends_leaf rfl).bind fun returned _ _ _ => ?_
  refine (spends_alloc _ rfl).bind fun ret _ _ _ => ?_
  refine (spends_typed (fun s => some (.function ((keys.map Prod.fst).filterMap s.ty?) none .external .view))
    rfl).bind fun getter _ _ hgetter => ?_
  refine (spends_setReturns hgetter _).bind fun _ _ _ _ => ?_
  exact (spends_appendDeclaration _ _).bind fun _ _ _ _ => spends_count _

theorem spends_addGetter (v : StorageVar) (module : NodeId) :
    Spends s₀ cost limit (k + 4 + 2 * v.depth + 2) (addGetter v module) w k fun _ _ => True := by
  unfold addGetter
  refine spends_node fun n _ _ => ?_
  split
  · refine spends_store ?_
    split
    · exact fun hk => hk.nextId_le
    · exact spends_makeGetter v module
  · exact spends_makeGetter v module

theorem spends_lowerDeclaration (hcost : 2 * s₀.breadth + 6 ≤ cost) (ht : Traced s₀ w) {node : NodeId}
    (hnode : node < s₀.nextId) (module : NodeId) :
    Spends s₀ cost limit cost (lowerDeclaration node module) w cost fun _ _ => True := by
  unfold lowerDeclaration
  refine spends_catalog ?_
  split
  · exact spends_pure trivial
  · next v hv =>
    have hdepth := (ht.catalog v (List.mem_of_find?_eq_some hv)).depth_le
    have hgetter : ∀ w, Spends s₀ cost limit (cost + cost) (addGetter v module) w cost fun _ _ => True := fun w =>
      (spends_addGetter (k := cost) v module).of_le (by omega) (Nat.le_refl _)
    refine spends_store ?_
    split
    · exact spends_pure trivial
    · next hty =>
      -- the declaration pays before the getter is made
      refine (earns_setSlot v hnode (by simpa using hty)).bind fun _ _ _ _ => ?_
      refine spends_node fun n _ _ => ?_
      split
      · split
        · exact (spends_setSlot v _).bind fun _ _ _ _ => hgetter _
        · exact hgetter _
      · split
        · exact (spends_setSlot v _).bind fun _ _ _ _ => (spends_pure trivial).of_le (by omega) (Nat.le_refl _)
        · exact (spends_pure trivial).of_le (by omega) (Nat.le_refl _)

theorem spends_collectDecl (decl : NodeId) : Spends s₀ cost limit k (collectDecl decl) w k fun _ _ => True := by
  unfold collectDecl
  refine spends_node fun n _ _ => ?_
  split
  · split
    · exact spends_pure trivial
    · refine spends_node fun m _ _ => ?_
      split
      · exact spends_throw
      · refine spends_store ?_
        split
        · exact spends_throw
        · exact spends_modifyCatalog _
  · exact spends_pure trivial

theorem spends_collectCatalog (module : NodeId) : Spends s₀ cost limit k (collectCatalog module) w k
    fun _ _ => True := by
  unfold collectCatalog
  refine (spends_modifyCatalog _).bind fun _ _ _ _ => ?_
  refine spends_node fun n _ _ => ?_
  split
  · exact spends_forM (fun i _ => spends_collectDecl i) _
  · exact spends_throw

end Lower

/-! ## A run -/

namespace Lowering

open Lower

variable {s₀ : Store} {cost limit : Nat} {w : Workspace Progress}

theorem spends_dispatch (hcost : 4 * s₀.breadth + 11 ≤ cost) (ht : Traced s₀ w) (i m : NodeId) :
    Spends s₀ cost limit cost (visitor.dispatch i m) w cost fun _ _ => True := by
  have hread : 4 ≤ cost := by omega
  unfold Visitor.dispatch
  refine spends_node fun n hw hn => ?_
  show Spends s₀ cost limit cost (visitor.visit n.tag i m) w cost _
  simp only [visitor]
  split
  · exact spends_collectCatalog i
  · next htag =>
    have hdecl : n.kind.label.isSource = true := by
      cases hk : n.kind <;> simp [Node.tag, hk, Kind.tag] at htag
      rfl
    exact spends_lowerDeclaration (by omega) ht (hw.lt_of_isSource hn hdecl) m
  · exact spends_lowerAssign (by omega) ht.tidy i
  · exact spends_lowerAugAssign hcost ht i
  · exact spends_lowerReadAt hread i
  · exact spends_lowerReadAt hread i
  · exact spends_pure trivial

theorem kept_affords {G : Outside} {m : NodeId} (hcost : 4 * s₀.breadth + 11 ≤ cost) :
    Kept G m (fun w => Traced s₀ w ∧ s₀.Affords cost limit cost w.store) fun w => w.store.nextId.toNat ≤
      limit := by
  rintro w T i h hi ⟨ht, ha⟩
  exact ((kept_traced h hi ht).and (spends_dispatch hcost ht i m ha)).mono (fun _ _ h => ⟨h.1, h.2.1⟩)
    fun _ _ h => h.2

end Lowering

/-- How many identities a run needs at most. A step makes no more than four nodes for each key and eleven others;
every node pays for two steps, and the last step may fail before it is paid for. -/
def Store.idBudget (s : Store) : Nat := (4 * s.breadth + 11) * (2 * s.size + 1)

namespace Lowering

open Lower

/-- **A run hands out no more identities than the size of the store and the keys in its types allow**, whether it
succeeds or fails. -/
theorem run_budget {w : Workspace Progress} {m : NodeId} (hs : w.store.Sound) (hv : w.store.verify m = .ok ()) :
    Ends (run m) w (fun _ w' => w'.store.nextId.toNat ≤ w.store.nextId.toNat + w.store.idBudget)
      fun _ w' => w'.store.nextId.toNat ≤ w.store.nextId.toNat + w.store.idBudget := by
  obtain ⟨T, rfl, -, -, hT⟩ := (Store.verify_iff hs.nodup m).1 hv
  cases hmodule : (T.root none).kind.isModule with
  | false =>
    refine (run_refuses hT.top hmodule).mono (fun _ _ h => h.elim) fun _ w' h => ?_
    rw [h]
    exact Nat.le_add_right _ _
  | true =>
    have hbudget : (4 * w.store.breadth + 11) * w.store.stake w.store.nextId + (4 * w.store.breadth + 11) ≤
        w.store.idBudget :=
      Nat.mul_le_mul_left _ (Nat.succ_le_succ Store.stake_le_size)
    have hstart : w.store.Affords (4 * w.store.breadth + 11) (w.store.nextId.toNat + w.store.idBudget)
        (4 * w.store.breadth + 11) w.store := by
      refine ⟨hs, Nat.le_refl _, fun hn hi => ?_, by omega⟩
      exact absurd (hs.below _ (Store.mem_ids_of_find? hn)) (Nat.not_lt.2 hi)
    have htraced : Traced w.store ⟨w.store, {}⟩ := ⟨.refl hs, .refl _, by simp⟩
    have hkeeps := run_keeps (w := ⟨w.store, {}⟩) (kept_affords (Nat.le_refl _)) (fun _ h => h.2.nextId_le)
      ⟨hs, (Store.verify_iff hs.nodup T.id).1 hv⟩ ⟨htraced, hstart⟩
    rw [Ends, run_own hT.top hmodule {}]
    exact hkeeps.mono (fun _ _ h => h.2.2.nextId_le) fun _ _ h => h.2

end Lowering

end ContractTree
