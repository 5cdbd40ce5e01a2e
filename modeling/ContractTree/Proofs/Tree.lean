import ContractTree.Proofs.Label
import Mathlib.Data.List.Induction
import Mathlib.Data.List.Nodup

/-!
Trees as values. A `Tree` is a node's contents with the trees of its heads and of its two statement lists, so that
the links are the identities of those trees. A place in a tree is a context, the frames on the way up from it:
`Ctx.plug` puts a tree into a place. A tree in its context has the identities and the nodes of both
(`Ctx.ids_plug`, `Ctx.mem_nodes_plug`), and of the context only the innermost node depends on what is in the place.
-/

namespace ContractTree

inductive Tree where
  | node (id : NodeId) (ty : Option Ty) (label : Label) (heads body orelse : List Tree)

namespace Tree

def id : Tree → NodeId
  | .node id _ _ _ _ _ => id

def ty : Tree → Option Ty
  | .node _ ty _ _ _ _ => ty

def label : Tree → Label
  | .node _ _ label _ _ _ => label

def heads : Tree → List Tree
  | .node _ _ _ heads _ _ => heads

def body : Tree → List Tree
  | .node _ _ _ _ body _ => body

def orelse : Tree → List Tree
  | .node _ _ _ _ _ orelse => orelse

/-- The trees of the children, in source order. -/
def kids (t : Tree) : List Tree := t.heads ++ t.body ++ t.orelse

def kind (t : Tree) : Kind := t.label.kind (t.heads.map id) (t.body.map id) (t.orelse.map id)

/-- The node at the top, below `parent`. -/
def root (t : Tree) (parent : Option NodeId) : Node := { id := t.id, parent, ty := t.ty, kind := t.kind }

mutual

/-- The identities in a tree, in pre-order. -/
def ids : Tree → List NodeId
  | .node id _ _ heads body orelse => id :: (idsAll heads ++ idsAll body ++ idsAll orelse)

def idsAll : List Tree → List NodeId
  | [] => []
  | t :: ts => ids t ++ idsAll ts

end

mutual

/-- The nodes of a tree below `parent`, in pre-order. -/
def nodes (parent : Option NodeId) : Tree → List Node
  | .node id ty label heads body orelse =>
    root (.node id ty label heads body orelse) parent ::
      (nodesAll id heads ++ nodesAll id body ++ nodesAll id orelse)

def nodesAll (parent : NodeId) : List Tree → List Node
  | [] => []
  | t :: ts => nodes (some parent) t ++ nodesAll parent ts

end

mutual

/-- Whether every node has as many children as its label takes. -/
def Fits : Tree → Prop
  | .node _ _ label heads body orelse =>
    label.Fits heads.length body.length orelse.length ∧ FitsAll heads ∧ FitsAll body ∧ FitsAll orelse

def FitsAll : List Tree → Prop
  | [] => True
  | t :: ts => Fits t ∧ FitsAll ts

end

/-- The tree with another type at the top. -/
def withTy (ty : Option Ty) : Tree → Tree
  | .node id _ label heads body orelse => .node id ty label heads body orelse

/-- A tree without children. -/
def leaf (id : NodeId) (ty : Option Ty) (label : Label) : Tree := .node id ty label [] [] []

/-! ## One level of a tree -/

section Level

variable {i : NodeId} {ty : Option Ty} {l : Label} {hs bs os : List Tree}

@[simp] theorem id_node : (node i ty l hs bs os).id = i := rfl
@[simp] theorem ty_node : (node i ty l hs bs os).ty = ty := rfl
@[simp] theorem label_node : (node i ty l hs bs os).label = l := rfl
@[simp] theorem heads_node : (node i ty l hs bs os).heads = hs := rfl
@[simp] theorem body_node : (node i ty l hs bs os).body = bs := rfl
@[simp] theorem orelse_node : (node i ty l hs bs os).orelse = os := rfl
@[simp] theorem kids_node : (node i ty l hs bs os).kids = hs ++ bs ++ os := rfl
@[simp] theorem root_id (t : Tree) (p : Option NodeId) : (t.root p).id = t.id := rfl
@[simp] theorem root_parent (t : Tree) (p : Option NodeId) : (t.root p).parent = p := rfl
@[simp] theorem root_ty (t : Tree) (p : Option NodeId) : (t.root p).ty = t.ty := rfl
@[simp] theorem root_kind (t : Tree) (p : Option NodeId) : (t.root p).kind = t.kind := rfl

end Level

theorem idsAll_eq (ts : List Tree) : idsAll ts = ts.flatMap ids := by
  induction ts with
  | nil => rfl
  | cons t ts ih => rw [idsAll, ih, List.flatMap_cons]

theorem nodesAll_eq (p : NodeId) (ts : List Tree) : nodesAll p ts = ts.flatMap (nodes (some p)) := by
  induction ts with
  | nil => rfl
  | cons t ts ih => rw [nodesAll, ih, List.flatMap_cons]

theorem fitsAll_iff (ts : List Tree) : FitsAll ts ↔ ∀ t ∈ ts, t.Fits := by
  induction ts with
  | nil => simp [FitsAll]
  | cons t ts ih => simp [FitsAll, ih]

theorem ids_eq (t : Tree) : t.ids = t.id :: t.kids.flatMap ids := by
  cases t
  simp [ids, idsAll_eq]

theorem nodes_eq (p : Option NodeId) (t : Tree) :
    t.nodes p = t.root p :: t.kids.flatMap (nodes (some t.id)) := by
  cases t
  simp [nodes, nodesAll_eq]

theorem fits_iff (t : Tree) :
    t.Fits ↔ t.label.Fits t.heads.length t.body.length t.orelse.length ∧ ∀ k ∈ t.kids, k.Fits := by
  obtain ⟨i, ty, l, hs, bs, os⟩ := t
  simp only [Fits, fitsAll_iff, label_node, heads_node, body_node, orelse_node, kids_node,
    List.forall_mem_append, and_assoc]

section WithTy

variable {ty : Option Ty} {t : Tree}

@[simp] theorem id_withTy : (t.withTy ty).id = t.id := by cases t; rfl
@[simp] theorem ty_withTy : (t.withTy ty).ty = ty := by cases t; rfl
@[simp] theorem label_withTy : (t.withTy ty).label = t.label := by cases t; rfl
@[simp] theorem heads_withTy : (t.withTy ty).heads = t.heads := by cases t; rfl
@[simp] theorem body_withTy : (t.withTy ty).body = t.body := by cases t; rfl
@[simp] theorem orelse_withTy : (t.withTy ty).orelse = t.orelse := by cases t; rfl
@[simp] theorem kids_withTy : (t.withTy ty).kids = t.kids := by cases t; rfl
@[simp] theorem kind_withTy : (t.withTy ty).kind = t.kind := by cases t; rfl
@[simp] theorem ids_withTy : (t.withTy ty).ids = t.ids := by cases t; simp [withTy, ids]
theorem fits_withTy : (t.withTy ty).Fits ↔ t.Fits := by cases t; simp [withTy, Fits]

end WithTy

/-- Induction on a tree, with the children of a node taken together. -/
@[induction_eliminator] theorem kids_induction {P : Tree → Prop} (step : ∀ t : Tree, (∀ k ∈ t.kids, P k) → P t)
    (t : Tree) : P t := by
  refine @Tree.rec P (fun ts => ∀ k ∈ ts, P k) ?_ ?_ ?_ t
  · intro i ty l hs bs os h1 h2 h3
    apply step
    intro k hk
    simp only [kids_node, List.mem_append] at hk
    exact hk.elim (fun hk => hk.elim (h1 k) (h2 k)) (h3 k)
  · simp
  · intro t ts h hs k hk
    rcases List.mem_cons.1 hk with rfl | hk
    · exact h
    · exact hs k hk

theorem id_mem_ids (t : Tree) : t.id ∈ t.ids := by
  rw [ids_eq]
  exact List.mem_cons_self

theorem map_id_nodes (p : Option NodeId) (t : Tree) : (t.nodes p).map Node.id = t.ids := by
  induction t generalizing p with
  | step t ih =>
    rw [nodes_eq, ids_eq, List.map_cons, List.map_flatMap]
    congr 1
    rw [List.flatMap_congr]
    intro k hk
    exact ih k hk _

theorem ids_subset_of_mem_kids {t k : Tree} (h : k ∈ t.kids) : k.ids ⊆ t.ids := by
  intro i hi
  rw [ids_eq]
  exact List.mem_cons_of_mem _ (List.mem_flatMap.2 ⟨k, h, hi⟩)

theorem nodup_map_id_kids {t : Tree} (hn : t.ids.Nodup) : (t.kids.map id).Nodup := by
  rw [ids_eq, List.nodup_cons, List.nodup_flatMap] at hn
  refine List.pairwise_map.2 (hn.2.2.imp fun {k k'} hdisjoint he => ?_)
  exact hdisjoint k.id_mem_ids (he ▸ k'.id_mem_ids)

theorem nodup_kid {t k : Tree} (hn : t.ids.Nodup) (hk : k ∈ t.kids) : k.ids.Nodup := by
  rw [ids_eq, List.nodup_cons] at hn
  exact (List.nodup_flatMap.1 hn.2).1 k hk

/-- In trees that share no node, the top of one is not inside another. -/
theorem eq_of_mem_ids {ts : List Tree} (h : (ts.flatMap ids).Nodup) {t u : Tree} (ht : t ∈ ts) (hu : u ∈ ts)
    (hi : u.id ∈ t.ids) : u = t := by
  obtain ⟨xs, ys, rfl⟩ := List.append_of_mem ht
  simp only [List.flatMap_append, List.flatMap_cons, List.nodup_append'] at h
  rcases List.mem_append.1 hu with hu | hu
  · exact absurd hi fun hi => h.2.2 (List.mem_flatMap.2 ⟨u, hu, u.id_mem_ids⟩) (List.mem_append_left _ hi)
  · rcases List.mem_cons.1 hu with rfl | hu
    · rfl
    · exact absurd hi fun hi => h.2.1.2.2 hi (List.mem_flatMap.2 ⟨u, hu, u.id_mem_ids⟩)

end Tree

/-! ## Contexts -/

inductive Part where
  | heads
  | body
  | orelse
  deriving DecidableEq

/-- A node with a place for trees in one of its lists: `left` and `right` stand around the place, and `first` and
`second` are the other two lists. -/
structure Frame where
  id : NodeId
  ty : Option Ty
  label : Label
  part : Part
  left : List Tree
  right : List Tree
  first : List Tree
  second : List Tree

namespace Frame

/-- The node with these trees in the place. -/
def plug (f : Frame) (us : List Tree) : Tree :=
  match f.part with
  | .heads => .node f.id f.ty f.label (f.left ++ us ++ f.right) f.first f.second
  | .body => .node f.id f.ty f.label f.first (f.left ++ us ++ f.right) f.second
  | .orelse => .node f.id f.ty f.label f.first f.second (f.left ++ us ++ f.right)

/-- The kind of the node with these links in the place. -/
def kind (f : Frame) (hole : List NodeId) : Kind :=
  let links := f.left.map Tree.id ++ hole ++ f.right.map Tree.id
  let first := f.first.map Tree.id
  let second := f.second.map Tree.id
  match f.part with
  | .heads => f.label.kind links first second
  | .body => f.label.kind first links second
  | .orelse => f.label.kind first second links

/-- The children in front of the place. -/
def before (f : Frame) : List Tree :=
  match f.part with
  | .heads => f.left
  | .body => f.first ++ f.left
  | .orelse => f.first ++ f.second ++ f.left

/-- The children behind the place. -/
def after (f : Frame) : List Tree :=
  match f.part with
  | .heads => f.right ++ f.first ++ f.second
  | .body => f.right ++ f.second
  | .orelse => f.right

/-- Puts trees in front of the place. -/
def push (f : Frame) (ts : List Tree) : Frame := { f with left := f.left ++ ts }

variable (f : Frame) (us ts : List Tree)

@[simp] theorem id_plug : (f.plug us).id = f.id := by
  unfold plug
  split <;> rfl

@[simp] theorem ty_plug : (f.plug us).ty = f.ty := by
  unfold plug
  split <;> rfl

@[simp] theorem label_plug : (f.plug us).label = f.label := by
  unfold plug
  split <;> rfl

@[simp] theorem kids_plug : (f.plug us).kids = f.before ++ us ++ f.after := by
  unfold plug before after
  split <;> simp

@[simp] theorem kind_plug : (f.plug us).kind = f.kind (us.map Tree.id) := by
  unfold plug kind
  split <;> simp [Tree.kind]

@[simp] theorem id_push : (f.push ts).id = f.id := rfl
@[simp] theorem part_push : (f.push ts).part = f.part := rfl
@[simp] theorem label_push : (f.push ts).label = f.label := rfl
@[simp] theorem first_push : (f.push ts).first = f.first := rfl
@[simp] theorem second_push : (f.push ts).second = f.second := rfl
@[simp] theorem after_push : (f.push ts).after = f.after := rfl

@[simp] theorem before_push : (f.push ts).before = f.before ++ ts := by
  unfold before push
  split <;> simp_all

theorem plug_push : (f.push ts).plug us = f.plug (ts ++ us) := by
  unfold plug push
  split <;> simp_all

@[simp] theorem push_nil : f.push [] = f := by simp [push]

@[simp] theorem push_push (vs : List Tree) : (f.push ts).push vs = f.push (ts ++ vs) := by simp [push]

end Frame

/-- The frames on the way up from a place, innermost first. -/
abbrev Ctx := List Frame

namespace Ctx

/-- The tree with `t` in the place. -/
def plug : Ctx → Tree → Tree
  | [], t => t
  | f :: C, t => plug C (f.plug [t])

/-- The node that the place is below. -/
def parent : Ctx → Option NodeId
  | [] => none
  | f :: _ => some f.id

/-- The identities outside the place. -/
def ids : Ctx → List NodeId
  | [] => []
  | f :: C => f.id :: ((f.before ++ f.after).flatMap Tree.ids ++ ids C)

/-- The nodes outside the place, when `hole` is in it. -/
def nodes : Ctx → NodeId → List Node
  | [], _ => []
  | f :: C, hole =>
    { id := f.id, parent := parent C, ty := f.ty, kind := f.kind [hole] } ::
      ((f.before ++ f.after).flatMap (Tree.nodes (some f.id)) ++ nodes C f.id)

variable (C D : Ctx) (f : Frame) (t : Tree)

@[simp] theorem plug_nil : plug [] t = t := rfl
@[simp] theorem plug_cons : plug (f :: C) t = plug C (f.plug [t]) := rfl
@[simp] theorem parent_nil : parent [] = none := rfl
@[simp] theorem parent_cons : parent (f :: C) = some f.id := rfl

theorem plug_append : plug (D ++ C) t = plug C (plug D t) := by
  induction D generalizing t with
  | nil => rfl
  | cons f D ih => exact ih _

theorem ids_plug : (plug C t).ids.Perm (C.ids ++ t.ids) := by
  induction C generalizing t with
  | nil => exact List.Perm.refl _
  | cons f C ih =>
    refine (ih (f.plug [t])).trans ?_
    rw [Tree.ids_eq, Frame.id_plug, Frame.kids_plug, ids]
    simp only [List.flatMap_append, List.flatMap_cons, List.flatMap_nil, List.append_nil, List.perm_iff_count,
      List.count_append, List.count_cons]
    intro a
    omega

theorem mem_nodes_plug (n : Node) :
    n ∈ (plug C t).nodes none ↔ n ∈ C.nodes t.id ∨ n ∈ t.nodes C.parent := by
  induction C generalizing t with
  | nil => simp [nodes]
  | cons f C ih =>
    rw [plug_cons, ih, Tree.nodes_eq, Frame.kids_plug, nodes]
    simp only [Frame.id_plug, Tree.root, Frame.ty_plug, Frame.kind_plug, List.flatMap_append, List.flatMap_cons,
      List.flatMap_nil, List.append_nil, List.mem_append, List.mem_cons, List.map_cons, List.map_nil, parent_cons]
    tauto

theorem mem_ids_plug (i : NodeId) : i ∈ (plug C t).ids ↔ i ∈ C.ids ∨ i ∈ t.ids := by
  rw [(ids_plug C t).mem_iff, List.mem_append]

theorem id_mem_plug : t.id ∈ (plug C t).ids := (mem_ids_plug C t _).2 (.inr t.id_mem_ids)

theorem nodup_plug : (plug C t).ids.Nodup ↔ C.ids.Nodup ∧ t.ids.Nodup ∧ ∀ i ∈ C.ids, i ∉ t.ids := by
  rw [(ids_plug C t).nodup_iff, List.nodup_append']
  rfl

theorem map_id_nodes (hole : NodeId) : (C.nodes hole).map Node.id = C.ids := by
  induction C generalizing hole with
  | nil => rfl
  | cons f C ih =>
    simp only [nodes, ids, List.map_cons, List.map_append, List.map_flatMap, Tree.map_id_nodes, ih]

end Ctx

/-- The top of what is in a place is neither the node above it nor beside it. -/
theorem Frame.id_notMem {f : Frame} {C : Ctx} {t : Tree} (h : (Ctx.plug (f :: C) t).ids.Nodup) :
    f.id ≠ t.id ∧ t.id ∉ f.before.map Tree.id ∧ t.id ∉ f.after.map Tree.id := by
  have h := (Ctx.nodup_plug C _).1 h |>.2.1
  rw [Tree.ids_eq, kids_plug, List.nodup_cons, id_plug, List.flatMap_append, List.flatMap_append,
    List.nodup_append', List.nodup_append'] at h
  obtain ⟨hid, ⟨-, -, hl⟩, -, hr⟩ := h
  have ht : t.id ∈ [t].flatMap Tree.ids := by simp [t.id_mem_ids]
  refine ⟨?_, ?_, ?_⟩
  · rintro he
    exact hid (List.mem_append_left _ (List.mem_append_right _ (he ▸ ht)))
  · intro hm
    obtain ⟨k, hk, he⟩ := List.mem_map.1 hm
    exact hl (List.mem_flatMap.2 ⟨k, hk, he ▸ k.id_mem_ids⟩) ht
  · intro hm
    obtain ⟨k, hk, he⟩ := List.mem_map.1 hm
    exact hr (List.mem_append_right _ ht) (List.mem_flatMap.2 ⟨k, hk, he ▸ k.id_mem_ids⟩)

/-! ## Links of trees that fit -/

namespace Tree

variable {t : Tree}

theorem Fits.top (h : t.Fits) : t.label.Fits (t.heads.map id).length (t.body.map id).length
    (t.orelse.map id).length := by
  simpa using ((fits_iff t).1 h).1

theorem Fits.kid {k : Tree} (h : t.Fits) (hk : k ∈ t.kids) : k.Fits := ((fits_iff t).1 h).2 k hk

theorem Fits.lists (h : t.Fits) : (∀ k ∈ t.heads, k.Fits) ∧ (∀ k ∈ t.body, k.Fits) ∧ ∀ k ∈ t.orelse, k.Fits := by
  simpa only [kids, List.forall_mem_append, and_assoc] using ((fits_iff t).1 h).2

theorem Fits.label_kind (h : t.Fits) : t.kind.label = t.label := (Label.parts_kind h.top).1

theorem Fits.isModule_kind (h : t.Fits) : t.kind.isModule = true ↔ t.label = .module := by
  rw [← h.label_kind]
  cases t.kind <;> simp [Kind.isModule, Kind.label]

theorem Fits.children_kind (h : t.Fits) : t.kind.children = t.kids.map id := by
  obtain ⟨-, h1, h2, h3⟩ := Label.parts_kind h.top
  rw [kind, Kind.children_eq, h1, h2, h3, kids, List.map_append, List.map_append]

end Tree

namespace Frame

variable {f : Frame} {t : Tree} {old new : NodeId}

theorem replaceChild?_kind (h : (f.plug [t]).Fits) (hold : t.id ∉ f.before.map Tree.id) :
    (f.kind [t.id]).replaceChild? t.id new = some (f.kind [new]) := by
  obtain ⟨h0, h1, h2, h3⟩ := Label.parts_kind h.top
  rw [← Tree.kind] at h0 h1 h2 h3
  simp only [kind_plug, List.map_cons, List.map_nil, label_plug] at h0 h1 h2 h3
  rw [Kind.replaceChild?_eq, h0, h1, h2, h3]
  unfold before at hold
  unfold plug kind
  split <;> simp_all [replaceFirst?_middle, replaceFirst?_of_notMem]

theorem insertStatement?_kind (h : (f.plug [t]).Fits) (hs : f.part ≠ .heads) (hold : t.id ∉ f.before.map Tree.id) :
    (f.kind [t.id]).insertStatement? new t.id = some (f.kind [new, t.id]) := by
  obtain ⟨h0, h1, h2, h3⟩ := Label.parts_kind h.top
  rw [← Tree.kind] at h0 h1 h2 h3
  simp only [kind_plug, List.map_cons, List.map_nil, label_plug] at h0 h1 h2 h3
  rw [Kind.insertStatement?_eq, h0, h1, h2, h3]
  unfold before at hold
  unfold plug kind
  split <;> simp_all [insertBefore?_middle, insertBefore?_of_notMem]

theorem holdsStatement_kind (h : (f.plug [t]).Fits) (hold : t.id ∉ f.after.map Tree.id) :
    (f.kind [t.id]).holdsStatement t.id = true ↔ f.part ≠ .heads := by
  obtain ⟨-, -, h2, h3⟩ := Label.parts_kind h.top
  rw [← Tree.kind] at h2 h3
  simp only [kind_plug, List.map_cons, List.map_nil] at h2 h3
  rw [Kind.holdsStatement_iff, h2, h3]
  unfold after at hold
  unfold plug
  split <;> simp_all

/-- A frame fits around another tree if it fits around one. -/
theorem plug_fits {u : Tree} (h : (f.plug [t]).Fits) (hu : u.Fits) : (f.plug [u]).Fits := by
  rw [Tree.fits_iff] at h ⊢
  refine ⟨?_, fun k hk => ?_⟩
  · have := h.1
    unfold plug at this ⊢
    split <;> simp_all
  · rw [kids_plug] at h hk
    simp only [List.mem_append, List.mem_singleton] at h hk
    rcases hk with (hk | rfl) | hk
    · exact h.2 k (.inl (.inl hk))
    · exact hu
    · exact h.2 k (.inr hk)

/-- A statement list takes any number of statements. -/
theorem push_fits {ts : List Tree} (h : (f.plug [t]).Fits) (hs : f.part ≠ .heads) (hts : ∀ u ∈ ts, u.Fits) :
    ((f.push ts).plug [t]).Fits := by
  rw [Tree.fits_iff] at h ⊢
  refine ⟨?_, fun k hk => ?_⟩
  · have := h.1
    unfold plug at this ⊢
    cases hl : f.label <;> cases hf : f.part <;> simp_all [Label.Fits]
  · rw [kids_plug] at h hk
    simp only [before_push, after_push, List.mem_append, List.mem_singleton] at h hk
    rcases hk with ((hk | hk) | rfl) | hk
    · exact h.2 k (.inl (.inl hk))
    · exact hts k hk
    · exact h.2 k (.inl (.inr rfl))
    · exact h.2 k (.inr hk)

end Frame

namespace Ctx

variable {C : Ctx} {t u : Tree}

theorem fits_of_plug (h : (C.plug t).Fits) : t.Fits := by
  induction C generalizing t with
  | nil => exact h
  | cons f C ih => exact (ih h).kid (by simp)

/-- A context fits around another tree if it fits around one. -/
theorem plug_fits (h : (C.plug t).Fits) (hu : u.Fits) : (C.plug u).Fits := by
  induction C generalizing t u with
  | nil => exact hu
  | cons f C ih => exact ih h (Frame.plug_fits (fits_of_plug h) hu)

end Ctx

/-! ## Places -/

/-- A child of a node is in a place of the node. -/
theorem Tree.exists_frame {t k : Tree} (h : k ∈ t.kids) : ∃ f : Frame, f.plug [k] = t := by
  obtain ⟨i, ty, l, hs, bs, os⟩ := t
  simp only [kids_node, List.mem_append] at h
  rcases h with (h | h) | h
  · obtain ⟨xs, ys, rfl⟩ := List.append_of_mem h
    exact ⟨⟨i, ty, l, .heads, xs, ys, bs, os⟩, by simp [Frame.plug]⟩
  · obtain ⟨xs, ys, rfl⟩ := List.append_of_mem h
    exact ⟨⟨i, ty, l, .body, xs, ys, hs, os⟩, by simp [Frame.plug]⟩
  · obtain ⟨xs, ys, rfl⟩ := List.append_of_mem h
    exact ⟨⟨i, ty, l, .orelse, xs, ys, hs, bs⟩, by simp [Frame.plug]⟩

theorem mem_of_insertBefore? {new anchor : NodeId} {xs : List NodeId} (h : insertBefore? new anchor xs ≠ none) :
    anchor ∈ xs := by
  by_contra hn
  exact h (insertBefore?_of_notMem hn)

/-- Where a statement can be inserted, the anchor is in a place of a statement list. -/
theorem Tree.exists_frame_of_insertStatement? {t : Tree} {new anchor : NodeId} {k : Kind} (hf : t.Fits)
    (h : t.kind.insertStatement? new anchor = some k) :
    ∃ (f : Frame) (u : Tree), f.plug [u] = t ∧ u.id = anchor ∧ f.part ≠ .heads := by
  obtain ⟨-, -, h2, h3⟩ := Label.parts_kind hf.top
  rw [← Tree.kind] at h2 h3
  rw [Kind.insertStatement?_eq, h2, h3, Option.or_eq_some_iff] at h
  obtain ⟨i, ty, l, hs, bs, os⟩ := t
  rcases h with h | ⟨-, h⟩
  · obtain ⟨bs', hbs, -⟩ := Option.map_eq_some_iff.1 h
    obtain ⟨u, hu, rfl⟩ := List.mem_map.1 (mem_of_insertBefore? (by rw [hbs]; simp))
    obtain ⟨xs, ys, rfl⟩ := List.append_of_mem (show u ∈ bs from hu)
    exact ⟨⟨i, ty, l, .body, xs, ys, hs, os⟩, u, by simp [Frame.plug], rfl, by simp⟩
  · obtain ⟨os', hos, -⟩ := Option.map_eq_some_iff.1 h
    obtain ⟨u, hu, rfl⟩ := List.mem_map.1 (mem_of_insertBefore? (by rw [hos]; simp))
    obtain ⟨xs, ys, rfl⟩ := List.append_of_mem (show u ∈ os from hu)
    exact ⟨⟨i, ty, l, .orelse, xs, ys, hs, bs⟩, u, by simp [Frame.plug], rfl, by simp⟩

/-- Every identity in a tree has a place. -/
theorem Tree.exists_place {t : Tree} {i : NodeId} (h : i ∈ t.ids) :
    ∃ (C : Ctx) (u : Tree), C.plug u = t ∧ u.id = i := by
  induction t with
  | step t ih =>
    rw [Tree.ids_eq, List.mem_cons, List.mem_flatMap] at h
    rcases h with rfl | ⟨k, hk, hi⟩
    · exact ⟨[], t, rfl, rfl⟩
    · obtain ⟨C, u, hC, hu⟩ := ih k hk hi
      obtain ⟨f, hf⟩ := Tree.exists_frame hk
      exact ⟨C ++ [f], u, by rw [Ctx.plug_append, hC]; exact hf, hu⟩

/-- In a list of trees that share no node, an identity is in one place. -/
theorem Tree.split_unique {xs ys xs' ys' : List Tree} {a b : Tree} {i : NodeId}
    (h : xs ++ a :: ys = xs' ++ b :: ys') (hn : ((xs ++ a :: ys).flatMap ids).Nodup) (ha : i ∈ a.ids)
    (hb : i ∈ b.ids) : xs = xs' ∧ a = b ∧ ys = ys' := by
  induction xs generalizing xs' with
  | nil =>
    cases xs' with
    | nil => exact ⟨rfl, List.cons.inj h⟩
    | cons x xs' =>
      obtain ⟨rfl, rfl⟩ := List.cons.inj h
      simp only [List.nil_append, List.flatMap_cons, List.nodup_append'] at hn
      exact absurd ha fun ha => hn.2.2 ha (by simp [hb])
  | cons x xs ih =>
    cases xs' with
    | nil =>
      obtain ⟨rfl, rfl⟩ := List.cons.inj h
      simp only [List.cons_append, List.flatMap_cons, List.flatMap_append, List.nodup_append'] at hn
      exact absurd hb fun hb => hn.2.2 hb (by simp [ha])
    | cons x' xs' =>
      simp only [List.cons_append, List.cons.injEq] at h
      obtain ⟨rfl, h⟩ := h
      simp only [List.cons_append, List.flatMap_cons, List.nodup_append'] at hn
      obtain ⟨rfl, rest⟩ := ih h hn.2.1
      exact ⟨rfl, rest⟩

theorem Frame.plug_inj {f g : Frame} {a b : Tree} {i : NodeId} (h : f.plug [a] = g.plug [b])
    (hn : (f.plug [a]).ids.Nodup) (ha : i ∈ a.ids) (hb : i ∈ b.ids) : f = g ∧ a = b := by
  have hkids := congrArg Tree.kids h
  rw [kids_plug, kids_plug, List.append_assoc, List.append_assoc] at hkids
  rw [Tree.ids_eq, kids_plug, List.append_assoc, List.nodup_cons] at hn
  obtain ⟨hbefore, rfl, -⟩ := Tree.split_unique hkids hn.2 ha hb
  obtain ⟨i₁, ty₁, l₁, p₁, left₁, right₁, first₁, second₁⟩ := f
  obtain ⟨i₂, ty₂, l₂, p₂, left₂, right₂, first₂, second₂⟩ := g
  -- the lists in front of the place have one length, so the place is in one part
  cases p₁ <;> cases p₂ <;>
    simp only [plug, Tree.node.injEq, before, List.append_assoc, List.singleton_append] at h hbefore <;>
    obtain ⟨rfl, rfl, rfl, h1, h2, h3⟩ := h <;> subst_vars <;>
    first
    | (have hlen := congrArg List.length hbefore; simp at hlen; omega)
    | simp_all

theorem Ctx.plug_inj {C D : Ctx} {t u : Tree} (h : C.plug t = D.plug u) (hn : (C.plug t).ids.Nodup)
    (hid : t.id = u.id) : C = D ∧ t = u := by
  have inside : ∀ {C : Ctx} {f : Frame} {t u : Tree}, u = (C ++ [f]).plug t → u.ids.Nodup → t.id ≠ u.id := by
    intro C f t u hu hn he
    rw [plug_append] at hu
    subst hu
    rw [plug_cons, plug_nil, Tree.ids_eq, Frame.kids_plug, List.nodup_cons] at hn
    refine hn.1 (he ▸ List.mem_flatMap.2 ⟨plug C t, by simp, ?_⟩)
    exact (mem_ids_plug C t _).2 (.inr t.id_mem_ids)
  induction C using List.reverseRecOn generalizing D with
  | nil =>
    rcases List.eq_nil_or_concat D with rfl | ⟨D, g, rfl⟩
    · exact ⟨rfl, h⟩
    · rw [List.concat_eq_append] at h
      exact absurd hid.symm (inside h hn)
  | append_singleton C f ih =>
    rcases List.eq_nil_or_concat D with rfl | ⟨D, g, rfl⟩
    · rw [h] at hn
      exact absurd hid (inside h.symm hn)
    · rw [List.concat_eq_append, plug_append, plug_append] at h
      rw [plug_append] at hn
      have ht : t.id ∈ (plug C t).ids := (mem_ids_plug C t _).2 (.inr t.id_mem_ids)
      have hu : t.id ∈ (plug D u).ids := (mem_ids_plug D u _).2 (.inr (hid ▸ u.id_mem_ids))
      obtain ⟨rfl, hCD⟩ := Frame.plug_inj h hn ht hu
      obtain ⟨rfl, rfl⟩ := ih hCD (nodup_plug [f] _ |>.1 hn).2.1
      exact ⟨by rw [List.concat_eq_append], rfl⟩

end ContractTree
