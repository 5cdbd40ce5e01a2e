import ContractTree.Dump
import ContractTree.Proofs.DocumentText
import ContractTree.Proofs.Fields
import ContractTree.Proofs.Holds
import Mathlib.Data.List.Perm.Basic

/-!
A dump is a faithful nesting of the documents of its nodes. It holds one object for each node of the tree and no
other object with an identity, and with identities in the place of these objects each of them is the document of
its node (`Dump.tree_faithful`).

A dump takes every number of a document for a child that has it as its identity. Since the fields of a kind that
are not links hold texts and truth values only, and the links of a kind are its children, that is right for each
field (`Dump.nest_slot`): numbers are links, and links are children.
-/

namespace ContractTree

namespace Dump

/-! ## Reading a dump -/

mutual

/-- The fields of the objects that have an identity, in the whole value. -/
def nodeObjects : Json → List (List (String × Json))
  | .arr items => itemObjects items
  | .obj fields => (if fields.any (·.1 = "node_id") then [fields] else []) ++ fieldObjects fields
  | _ => []

def itemObjects : List Json → List (List (String × Json))
  | [] => []
  | j :: js => nodeObjects j ++ itemObjects js

def fieldObjects : List (String × Json) → List (List (String × Json))
  | [] => []
  | (_, j) :: fs => nodeObjects j ++ fieldObjects fs

end

mutual

/-- The value with identities in the place of the objects that have one. -/
def unnest : Json → Json
  | .arr items => .arr (unnestItems items)
  | .obj fields =>
    match fields.lookup "node_id" with
    | some id => id
    | none => .obj (unnestFields fields)
  | j => j

def unnestItems : List Json → List Json
  | [] => []
  | j :: js => unnest j :: unnestItems js

def unnestFields : List (String × Json) → List (String × Json)
  | [] => []
  | (name, j) :: fs => (name, unnest j) :: unnestFields fs

end

/-- The value is an object with this identity. -/
def StandsFor (i : NodeId) (j : Json) : Prop := ∃ fields, j = .obj fields ∧ fields.lookup "node_id" = some i.toJson

/-- Objects stand in the place of all links of the field, and what is no link is as it is. -/
def Nests : Slot → Json → Prop
  | .child i, j => StandsFor i j
  | .childOption none, j => j = .null
  | .childOption (some i), j => StandsFor i j
  | .childList is, j => ∃ js, j = .arr js ∧ List.Forall₂ StandsFor is js
  | .data d, j => j = d

/-- The object is the document of the node, with its type as text and with objects in the place of links. -/
structure Describes (fields : List (String × Json)) (n : Node) : Prop where
  flat : (unnestFields fields).Perm
    ([("node_id", n.id.toJson), ("type", Json.ofOption (fun t => .str (Ty.display t)) n.ty)] ++ n.kind.toFields)
  nested : ∀ f ∈ n.kind.slots, ∃ j, (f.1, j) ∈ fields ∧ Nests f.2 j

theorem fieldObjects_eq (fs : List (String × Json)) : fieldObjects fs = fs.flatMap (nodeObjects ·.2) := by
  induction fs with
  | nil => rfl
  | cons f fs ih => rw [fieldObjects, ih, List.flatMap_cons]

theorem unnestFields_eq (fs : List (String × Json)) : unnestFields fs = fs.map fun f => (f.1, unnest f.2) := by
  induction fs with
  | nil => rfl
  | cons f fs ih => rw [unnestFields, ih, List.map_cons]

theorem fieldObjects_perm {fs gs : List (String × Json)} (h : fs.Perm gs) :
    (fieldObjects fs).Perm (fieldObjects gs) := by
  rw [fieldObjects_eq, fieldObjects_eq]
  exact h.flatMap_right _

theorem unnestFields_perm {fs gs : List (String × Json)} (h : fs.Perm gs) :
    (unnestFields fs).Perm (unnestFields gs) := by
  rw [unnestFields_eq, unnestFields_eq]
  exact h.map _

theorem StandsFor.unnest_eq {i : NodeId} {j : Json} (h : StandsFor i j) : unnest j = i.toJson := by
  obtain ⟨fields, rfl, hid⟩ := h
  rw [unnest, hid]

/-! ## The order of fields -/

theorem insertField_perm {α : Type} (f : String × α) (l : List (String × α)) :
    (insertField f l).Perm (f :: l) := by
  induction l with
  | nil => exact List.Perm.refl _
  | cons g l ih =>
    unfold insertField
    split
    · exact List.Perm.refl _
    · exact (ih.cons g).trans (List.Perm.swap f g l)

theorem sortFields_perm {α : Type} (l : List (String × α)) : (sortFields l).Perm l := by
  induction l with
  | nil => exact List.Perm.refl _
  | cons f l ih => exact (insertField_perm f _).trans (ih.cons f)

/-- Fields are sorted by their names alone. -/
theorem sortFields_map {α β : Type} (g : α → β) (l : List (String × α)) :
    sortFields (l.map fun f => (f.1, g f.2)) = (sortFields l).map fun f => (f.1, g f.2) := by
  have hinsert : ∀ (f : String × α) (l : List (String × α)),
      insertField (f.1, g f.2) (l.map fun f => (f.1, g f.2)) = (insertField f l).map fun f => (f.1, g f.2) := by
    intro f l
    induction l with
    | nil => rfl
    | cons x l ih =>
      simp only [List.map_cons, insertField]
      split
      · rfl
      · rw [ih, List.map_cons]
  induction l with
  | nil => rfl
  | cons f l ih =>
    show insertField _ (sortFields _) = (insertField f (sortFields l)).map _
    rw [ih, hinsert]

theorem slot_notMem_ownFields {k : Kind} {f : String × Slot} (hf : f ∈ k.slots) : f.1 ∉ ownFields := by
  have htag : ∀ tag : Tag, ∀ x ∈ tag.fieldNames, x ∉ ownFields := by
    intro tag
    cases tag <;> decide
  exact htag k.tag f.1 (by rw [← Kind.map_fst_slots]; exact List.mem_map_of_mem hf)

theorem takenFields_eq (n : Node) : takenFields n = n.kind.slots.map fun f => (f.1, f.2.toJson) := by
  have hparent : (n.parent.toList.map (("parent", NodeId.toJson ·))).filter (·.1 ∉ ownFields) = [] := by
    cases n.parent <;> simp [ownFields]
  have hty : (n.ty.toList.map (("type", Ty.toJson ·))).filter (·.1 ∉ ownFields) = [] := by
    cases n.ty <;> simp [ownFields]
  have hkept : (n.kind.slots.map fun f => (f.1, f.2.toJson)).filter (·.1 ∉ ownFields) =
      n.kind.slots.map fun f => (f.1, f.2.toJson) := by
    rw [List.filter_eq_self, List.forall_mem_map]
    exact fun f hf => by simpa using slot_notMem_ownFields hf
  simp only [takenFields, Node.toJson, Kind.toFields, List.filter_append, List.filter_cons, hparent, hty, hkept]
  simp [ownFields]

/-! ## Numbers are links -/

variable {dump : NodeId → Except StructuralError Json} {children : List NodeId} {s : Store}

theorem childWith?_toNat {i : NodeId} (hi : i ∈ children) : childWith? children i.toNat = some i := by
  have hread : NodeId.ofJson? (.nat i.toNat) = some i := NodeId.ofJson?_toJson i
  simp [childWith?, hread, Option.filter, hi]

/-- The fields of a kind that are no links hold no numbers. -/
theorem literal_of_data {k : Kind} {name : String} {j : Json} (h : (name, Slot.data j) ∈ k.slots) :
    (∃ x, j = .str x) ∨ ∃ b, j = .bool b := by
  cases k <;> simp [Kind.slots] at h <;> grind [Visibility.toJson, Mutability.toJson]

/-- The field with `dump` in the place of every link. -/
def nestSlot (dump : NodeId → Except StructuralError Json) : Slot → Except StructuralError Json
  | .child i => dump i
  | .childOption none => .ok .null
  | .childOption (some i) => dump i
  | .childList is => do return .arr (← is.mapM dump)
  | .data j => .ok j

theorem nestItems_map {is : List NodeId} (h : ∀ i ∈ is, i ∈ children) :
    nestItems dump children (is.map NodeId.toJson) = is.mapM dump := by
  induction is with
  | nil => rfl
  | cons i is ih =>
    rw [List.forall_mem_cons] at h
    rw [List.map_cons, nestItems, ih h.2, NodeId.toJson, nest, childWith?_toNat h.1, List.mapM_cons]

/-- **A number is taken for a child exactly in the place of a link.** -/
theorem nest_slot {k : Kind} {f : String × Slot} (hf : f ∈ k.slots) :
    nest dump k.children f.2.toJson = nestSlot dump f.2 := by
  have hids : ∀ i ∈ f.2.ids, i ∈ k.children := by
    intro i hi
    rw [← Kind.flatMap_ids_slots]
    exact List.mem_flatMap.2 ⟨f, hf, hi⟩
  obtain ⟨name, slot⟩ := f
  cases slot with
  | child i =>
    rw [Slot.toJson, NodeId.toJson, nest, childWith?_toNat (hids i (by simp [Slot.ids]))]
    rfl
  | childOption i =>
    cases i with
    | none => rfl
    | some i =>
      show nest dump k.children (.nat i.toNat) = dump i
      rw [nest, childWith?_toNat (hids i (by simp [Slot.ids]))]
  | childList is =>
    have hids : ∀ i ∈ is, i ∈ k.children := hids
    rw [Slot.toJson, nest, nestItems_map hids]
    rfl
  | data j =>
    rcases literal_of_data hf with ⟨x, rfl⟩ | ⟨b, rfl⟩ <;> rfl

/-! ## Objects and nodes -/

/-- The objects are those of the nodes at and below the given ones, in some order. -/
def Covers (s : Store) (objects : List (List (String × Json))) (is : List NodeId) : Prop :=
  ∃ nodes, nodes.Perm (is.flatMap s.preorder) ∧ List.Forall₂ Describes objects nodes

theorem covers_nil : Covers s [] [] := ⟨[], List.Perm.refl _, .nil⟩

theorem Covers.append {os os' : List (List (String × Json))} {is is' : List NodeId} (h : Covers s os is)
    (h' : Covers s os' is') : Covers s (os ++ os') (is ++ is') := by
  obtain ⟨nodes, hperm, hall⟩ := h
  obtain ⟨nodes', hperm', hall'⟩ := h'
  refine ⟨nodes ++ nodes', ?_, List.rel_append hall hall'⟩
  rw [List.flatMap_append]
  exact hperm.append hperm'

theorem Covers.perm {os os' : List (List (String × Json))} {is is' : List NodeId} (h : Covers s os is)
    (hos : os'.Perm os) (his : is.Perm is') : Covers s os' is' := by
  obtain ⟨nodes, hperm, hall⟩ := h
  obtain ⟨nodes', hall', hperm'⟩ := List.perm_comp_forall₂ hos hall
  exact ⟨nodes', (hperm'.trans hperm).trans (his.flatMap_right _), hall'⟩

/-- The value is the dump of the tree below the node. -/
structure Dumps (s : Store) (i : NodeId) (j : Json) : Prop where
  stands : StandsFor i j
  covers : Covers s (nodeObjects j) [i]

/-- The value is the field with dumps in the place of links. -/
structure DumpsField (s : Store) (slot : Slot) (j : Json) : Prop where
  nests : Nests slot j
  unnests : unnest j = slot.toJson
  covers : Covers s (nodeObjects j) slot.ids

theorem forall₂_dumps {is : List NodeId} {js : List Json} (h : List.Forall₂ (Dumps s) is js) :
    List.Forall₂ StandsFor is js ∧ unnestItems js = is.map NodeId.toJson ∧ Covers s (itemObjects js) is := by
  induction h with
  | nil => exact ⟨.nil, rfl, covers_nil⟩
  | cons hd _ ih =>
    obtain ⟨hstands, hunnest, hcovers⟩ := ih
    refine ⟨.cons hd.stands hstands, ?_, hd.covers.append hcovers⟩
    rw [unnestItems, hd.stands.unnest_eq, hunnest, List.map_cons]

theorem exists_mapM_forall₂ {ε α β : Type} {f : α → Except ε β} {P : α → β → Prop} {as : List α}
    (h : ∀ a ∈ as, ∃ b, f a = .ok b ∧ P a b) : ∃ bs, as.mapM f = .ok bs ∧ List.Forall₂ P as bs := by
  induction as with
  | nil => exact ⟨[], rfl, .nil⟩
  | cons a as ih =>
    rw [List.forall_mem_cons] at h
    obtain ⟨⟨b, hb, hab⟩, h⟩ := h
    obtain ⟨bs, hbs, hall⟩ := ih h
    exact ⟨b :: bs, by rw [List.mapM_cons, hb, hbs]; rfl, .cons hab hall⟩

/-- A field is dumped if the nodes that it links to are. -/
theorem exists_dumpsField {k : Kind} {f : String × Slot} (hf : f ∈ k.slots)
    (h : ∀ i ∈ k.children, ∃ j, dump i = .ok j ∧ Dumps s i j) :
    ∃ j, nest dump k.children f.2.toJson = .ok j ∧ DumpsField s f.2 j := by
  have hids : ∀ i ∈ f.2.ids, ∃ j, dump i = .ok j ∧ Dumps s i j := by
    intro i hi
    refine h i ?_
    rw [← Kind.flatMap_ids_slots]
    exact List.mem_flatMap.2 ⟨f, hf, hi⟩
  rw [nest_slot hf]
  obtain ⟨name, slot⟩ := f
  cases slot with
  | child i =>
    obtain ⟨j, hj, hd⟩ := hids i (by simp [Slot.ids])
    exact ⟨j, hj, hd.stands, hd.stands.unnest_eq, hd.covers⟩
  | childOption i =>
    cases i with
    | none => exact ⟨.null, rfl, rfl, rfl, covers_nil⟩
    | some i =>
      obtain ⟨j, hj, hd⟩ := hids i (by simp [Slot.ids])
      exact ⟨j, hj, hd.stands, hd.stands.unnest_eq, hd.covers⟩
  | childList is =>
    have hids : ∀ i ∈ is, ∃ j, dump i = .ok j ∧ Dumps s i j := hids
    obtain ⟨js, hjs, hall⟩ := exists_mapM_forall₂ hids
    obtain ⟨hstands, hunnest, hcovers⟩ := forall₂_dumps hall
    refine ⟨.arr js, by rw [nestSlot, hjs]; rfl, ⟨js, rfl, hstands⟩, ?_, hcovers⟩
    rw [unnest, hunnest, Slot.toJson]
  | data j =>
    refine ⟨j, rfl, rfl, ?_, ?_⟩
    · rcases literal_of_data hf with ⟨x, rfl⟩ | ⟨b, rfl⟩ <;> rfl
    · rcases literal_of_data hf with ⟨x, rfl⟩ | ⟨b, rfl⟩ <;> exact covers_nil

/-- What the fields of an object say, as far as they are fields of the kind. -/
theorem forall₂_dumpsField {slots : List (String × Slot)} {fields : List (String × Json)}
    (h : List.Forall₂ (fun a b => b.1 = a.1 ∧ DumpsField s a.2 b.2) slots fields) :
    (∀ a ∈ slots, ∃ j, (a.1, j) ∈ fields ∧ Nests a.2 j) ∧
      unnestFields fields = slots.map (fun a => (a.1, a.2.toJson)) ∧
      Covers s (fieldObjects fields) (slots.flatMap (·.2.ids)) := by
  induction h with
  | nil => exact ⟨by simp, rfl, covers_nil⟩
  | @cons a b slots fields hab _ ih =>
    obtain ⟨name, j⟩ := b
    obtain ⟨rfl, hdumps⟩ := hab
    obtain ⟨hnested, hflat, hcovers⟩ := ih
    refine ⟨List.forall_mem_cons.2 ⟨⟨j, by simp, hdumps.nests⟩, fun a ha => ?_⟩, ?_, hdumps.covers.append hcovers⟩
    · obtain ⟨j, hj, hnests⟩ := hnested a ha
      exact ⟨j, List.mem_cons_of_mem _ hj, hnests⟩
    · rw [unnestFields, hflat, hdumps.unnests, List.map_cons]

theorem lookup_of_mem {x : String} {v : Json} {l : List (String × Json)} (hmem : (x, v) ∈ l)
    (huniq : ∀ w, (x, w) ∈ l → w = v) : l.lookup x = some v := by
  induction l with
  | nil => cases hmem
  | cons f l ih =>
    obtain ⟨y, w⟩ := f
    by_cases hxy : x = y
    · subst hxy
      rw [List.lookup_cons_self, huniq w (by simp)]
    · have hmem : (x, v) ∈ l := (List.mem_cons.1 hmem).resolve_left fun he => hxy (Prod.ext_iff.1 he).1
      have hne : (x == y) = false := by simpa using hxy
      rw [List.lookup_cons, hne]
      exact ih hmem fun w hw => huniq w (List.mem_cons_of_mem _ hw)

/-- One step: a node is dumped if its fields are. -/
theorem dumps_node {n : Node} {fields : List (String × Json)}
    (hpre : s.preorder n.id = n :: n.kind.children.flatMap s.preorder)
    (h : List.Forall₂ (fun a b => b.1 = a.1 ∧ DumpsField s a.2 b.2) (sortFields n.kind.slots) fields) :
    Dumps s n.id (.obj (sortFields ([("ast_type", .str n.tag.label), ("node_id", n.id.toJson),
      ("type", Json.ofOption (fun t => .str (Ty.display t)) n.ty)] ++ fields))) := by
  obtain ⟨hnested, hflat, hcovers⟩ := forall₂_dumpsField h
  have hslots := sortFields_perm n.kind.slots
  have hnames : ∀ x j, (x, j) ∈ fields → x ∉ ownFields := by
    intro x j hmem
    have hmem' : (x, unnest j) ∈ unnestFields fields := by
      rw [unnestFields_eq]
      exact List.mem_map_of_mem hmem
    rw [hflat, List.mem_map] at hmem'
    obtain ⟨a, ha, he⟩ := hmem'
    have hname : a.1 = x := (Prod.ext_iff.1 he).1
    rw [← hname]
    exact slot_notMem_ownFields (hslots.mem_iff.1 ha)
  generalize hty : Json.ofOption (fun t => Json.str (Ty.display t)) n.ty = ty
  have htyLeaf : unnest ty = ty ∧ nodeObjects ty = [] := by
    rw [← hty]
    cases n.ty <;> exact ⟨rfl, rfl⟩
  have hperm := sortFields_perm ([("ast_type", .str n.tag.label), ("node_id", n.id.toJson),
    ("type", ty)] ++ fields)
  generalize sortFields _ = sorted at hperm ⊢
  have hid : ("node_id", n.id.toJson) ∈ sorted := hperm.mem_iff.2 (by simp)
  have hdescribes : Describes sorted n := by
    refine ⟨?_, fun f hf => ?_⟩
    · rw [hty]
      refine (unnestFields_perm hperm).trans ?_
      have hkind : (unnestFields fields).Perm (n.kind.slots.map fun a => (a.1, a.2.toJson)) := by
        rw [hflat]
        exact hslots.map _
      simp only [List.cons_append, List.nil_append, unnestFields, NodeId.toJson, unnest, htyLeaf.1, Kind.toFields]
      exact ((List.Perm.swap _ _ _).trans ((List.Perm.swap _ _ _).cons _)).trans (((hkind.cons _).cons _).cons _)
    · obtain ⟨j, hj, hnests⟩ := hnested f (hslots.mem_iff.2 hf)
      exact ⟨j, hperm.mem_iff.2 (List.mem_append_right _ hj), hnests⟩
  have hrest : Covers s (fieldObjects sorted) n.kind.children := by
    refine hcovers.perm ?_ ?_
    · refine (fieldObjects_perm hperm).trans ?_
      simp [fieldObjects, nodeObjects, NodeId.toJson, htyLeaf.2]
    · rw [← Kind.flatMap_ids_slots]
      exact hslots.flatMap_right _
  refine ⟨⟨sorted, rfl, lookup_of_mem hid fun w hw => ?_⟩, ?_⟩
  · rcases List.mem_append.1 (hperm.mem_iff.1 hw) with hw | hw
    · simpa using hw
    · exact absurd (hnames _ _ hw) (by simp [ownFields])
  · obtain ⟨nodes, hnodes, hall⟩ := hrest
    have hany : sorted.any (·.1 = "node_id") = true := List.any_eq_true.2 ⟨_, hid, by simp⟩
    rw [nodeObjects, if_pos hany]
    exact ⟨n :: nodes, by simpa [hpre] using hnodes.cons n, .cons hdescribes hall⟩

/-- Every tree has a dump. -/
theorem exists_dumps {p : Option NodeId} {t : Tree} {fuel : Nat} (h : s.Holds p t) (hf : t.Fits) (hn : t.ids.Nodup)
    (hfuel : t.ids.length ≤ fuel) : ∃ j, treeWithin s fuel t.id = .ok j ∧ Dumps s t.id j := by
  induction t generalizing p fuel with
  | step t ih =>
    cases fuel with
    | zero => simp [Tree.ids_eq t] at hfuel
    | succ fuel =>
      have hkids : ∀ i ∈ t.kind.children, ∃ j, treeWithin s fuel i = .ok j ∧ Dumps s i j := by
        rw [hf.children_kind, List.forall_mem_map]
        intro k hk
        have hlt := Store.length_ids_kid_lt hk
        exact ih k hk (h.kid hk) (hf.kid hk) (Tree.nodup_kid hn hk) (by omega)
      have hpre : s.preorder t.id = t.root p :: t.kind.children.flatMap s.preorder := by
        rw [h.preorder_eq hf hn, Tree.nodes_eq, hf.children_kind, List.flatMap_map]
        congr 1
        exact List.flatMap_congr fun k hk => ((h.kid hk).preorder_eq (hf.kid hk) (Tree.nodup_kid hn hk)).symm
      have hfields : ∀ f ∈ sortFields t.kind.slots, ∃ g,
          (do return (f.1, ← nest (treeWithin s fuel) t.kind.children f.2.toJson) :
            Except StructuralError (String × Json)) = .ok g ∧ g.1 = f.1 ∧ DumpsField s f.2 g.2 := by
        intro f hmem
        obtain ⟨j, hj, hd⟩ := exists_dumpsField ((sortFields_perm _).mem_iff.1 hmem) hkids
        exact ⟨(f.1, j), by rw [hj]; rfl, rfl, hd⟩
      obtain ⟨fields, hmapM, hall⟩ := exists_mapM_forall₂ hfields
      refine ⟨_, ?_, dumps_node (n := t.root p) hpre hall⟩
      have hnode : s.node t.id = .ok (t.root p) := by rw [Store.node, h.top]
      simp only [bind, Except.bind] at hmapM
      rw [treeWithin, hnode]
      simp only [bind, Except.bind, takenFields_eq, sortFields_map, List.mapM_map, Function.comp_def,
        Node.children, Tree.root_kind, hmapM]
      rfl

/-- **A dump is a faithful nesting.** A tree in which the check finds no flaw has a dump, which stands for its
root. The objects with an identity in it are those of the nodes of the tree, one for each node; such an object has
the fields of the node's document, once identities are put back in the place of objects, and an object in the place
of every link. -/
theorem tree_faithful {root : NodeId} (hs : s.ids.Nodup) (hv : s.verify root = .ok ()) :
    ∃ j, tree s root = .ok j ∧ StandsFor root j ∧
      ∃ nodes, nodes.Perm (s.preorder root) ∧ List.Forall₂ Describes (nodeObjects j) nodes := by
  obtain ⟨t, rfl, hf, hn, ht⟩ := (Store.verify_iff hs root).1 hv
  have hlen := ht.length_le hn
  obtain ⟨j, hj, hd⟩ := exists_dumps ht hf hn (by omega : t.ids.length ≤ s.size + 1)
  obtain ⟨nodes, hnodes, hall⟩ := hd.covers
  exact ⟨j, hj, hd.stands, nodes, by simpa using hnodes, hall⟩

/-- A condition on a literal and a name; the literal is spelled like the identity of the name. -/
def conjunction : Store where
  nextId := ⟨5⟩
  nodes := [
    { id := ⟨0⟩, kind := .module [⟨1⟩] },
    { id := ⟨1⟩, parent := some ⟨0⟩, kind := .assert ⟨2⟩ },
    { id := ⟨2⟩, parent := some ⟨1⟩, ty := some .bool, kind := .boolOp .and [⟨3⟩, ⟨4⟩] },
    { id := ⟨3⟩, parent := some ⟨2⟩, kind := .int 4 },
    { id := ⟨4⟩, parent := some ⟨2⟩, ty := some .bool, kind := .name "ready" }]

theorem tree_faithful_conjunction : conjunction.ids.Nodup ∧ conjunction.verify ⟨0⟩ = .ok () ∧
    ∃ j, tree conjunction ⟨0⟩ = .ok j ∧ (nodeObjects j).length = 5 := by
  have hs : conjunction.ids.Nodup := by decide
  have hv : conjunction.verify ⟨0⟩ = .ok () := by decide +kernel
  obtain ⟨j, hj, -, nodes, hperm, hall⟩ := tree_faithful hs hv
  have hfive : (conjunction.preorder ⟨0⟩).length = 5 := by decide +kernel
  exact ⟨hs, hv, j, hj, hall.length_eq.trans (hperm.length_eq.trans hfive)⟩

end Dump

end ContractTree
