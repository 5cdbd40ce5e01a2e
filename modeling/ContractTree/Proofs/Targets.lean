import ContractTree.Proofs.Extract
import ContractTree.Proofs.Preservation
import ContractTree.Proofs.Rendered

/-!
What becomes of a statement that binds a part of a state variable. Its target descends to a member of `self`
through members and subscripts. If it is an assignment whose target is a chain on that member, a write of the slot
takes its place. Otherwise it stays, and its target descends to a temporary that a read of the slot in front of it
has bound, so that the state variable is not changed (`Lowering.run_targets`).
-/

namespace ContractTree

open Lowering (Progress)

/-! ## Targets -/

namespace Kind

/-- What a statement binds. -/
def target? : Kind → Option NodeId
  | .assign target _ => some target
  | .augAssign target _ _ => some target
  | .annAssign target _ => some target
  | .forIn target _ _ => some target
  | _ => none

/-- Whether a statement is an assignment, augmented or not. -/
def assigns : Kind → Bool
  | .assign _ _ | .augAssign _ _ _ => true
  | _ => false

/-- The links in one part of a node. -/
def links (k : Kind) : Part → List NodeId
  | .heads => k.heads
  | .body => k.body
  | .orelse => k.orelse

end Kind

/-- Whether a statement of this sort binds its first head. -/
def Label.binds : Label → Bool
  | .assign | .augAssign _ | .annAssign | .forIn => true
  | _ => false

namespace Store

/-- The node `r` is reached from another through members and subscripts. -/
inductive Descends (s : Store) (r : NodeId) : NodeId → Prop
  | here : Descends s r r
  | member {i value : NodeId} {attr : String} (hi : s.kind? i = some (.member value attr))
      (h : Descends s r value) : Descends s r i
  | subscript {i value slice : NodeId} (hi : s.kind? i = some (.subscript value slice)) (h : Descends s r value) :
      Descends s r i

/-- Statements are lowered in their order, each with others in front: it stays, or a write comes in its place. -/
inductive LoweredTo (s : Store) : List NodeId → List NodeId → Prop
  | nil : LoweredTo s [] []
  | cons {i j : NodeId} {is js : List NodeId} (front : List NodeId)
      (h : j = i ∨ ∃ slot keys value, s.kind? j = some (.storageWrite slot keys value)) (hs : LoweredTo s is js) :
      LoweredTo s (i :: is) (front ++ j :: js)

/-- The statement `j` of the store `s'`, with `front` in front of it, is in the place of the statement `i` of the
store `s`. -/
def InPlace (s s' : Store) (i : NodeId) (front : List NodeId) (j : NodeId) : Prop :=
  ∃ block k k' part before after before' after', s.kind? block = some k ∧ s'.kind? block = some k' ∧
    part ≠ Part.heads ∧ k.links part = before ++ i :: after ∧ k'.links part = before' ++ (front ++ j :: after') ∧
    s'.LoweredTo before before' ∧ s'.LoweredTo after after'

end Store

namespace Tree

variable {c : Catalog} {ν : NodeId} {t r : Tree} {v v' : StorageVar}

/-- The tree `r` is reached from another through members and subscripts. -/
inductive Descends (r : Tree) : Tree → Prop
  | here : Descends r r
  | member {i : NodeId} {ty : Option Ty} {attr : String} {x : Tree} (h : Descends r x) :
      Descends r (.node i ty (.member attr) [x] [] [])
  | subscript {i : NodeId} {ty : Option Ty} {x k : Tree} (h : Descends r x) :
      Descends r (.node i ty .subscript [x, k] [] [])

theorem Descends.eq_of_name {y : String} (h : Descends r t) (hl : t.label = .name y) : r = t := by
  cases h with
  | here => rfl
  | member => cases hl
  | subscript => cases hl

/-- What is inside a member of `self` does not refer to storage. -/
theorem Descends.receiver?_eq_none {i : NodeId} {ty : Option Ty} {attr : String} {x : Tree} (h : Descends r x)
    (hr : r.receiver? c = some v) : (Tree.node i ty (.member attr) [x] [] []).receiver? c = none := by
  rw [receiver?, if_neg]
  intro hself
  obtain rfl := h.eq_of_name hself
  obtain ⟨attr, hl⟩ := label_of_receiver? hr
  rw [hself] at hl
  cases hl

/-- Where a chain reaches a state variable, nothing else in it refers to storage. -/
theorem Descends.eq_base (h : Descends r t) (hr : r.receiver? c = some v) (ht : t.reach c = some v') :
    r = t.base := by
  induction h with
  | here =>
    obtain ⟨attr, hl⟩ := label_of_receiver? hr
    rw [base_of_label (by simp [hl])]
  | member h ih =>
    rw [reach, base_of_label (by simp), h.receiver?_eq_none hr] at ht
    cases ht
  | subscript h ih => exact ih ht

theorem Fits.of_member {value : NodeId} {attr : String} (hf : t.Fits) (hk : t.kind = .member value attr) :
    ∃ i ty x, t = .node i ty (.member attr) [x] [] [] ∧ x.id = value := by
  have hl := hf.label_kind
  rw [hk] at hl
  rcases hf.member_cases with ⟨i, ty, attr', x, rfl⟩ | hne
  · obtain ⟨hx, rfl⟩ := Kind.member.inj hk
    exact ⟨i, ty, x, rfl, hx⟩
  · exact absurd hl.symm (hne attr)

theorem Fits.of_subscript {value slice : NodeId} (hf : t.Fits) (hk : t.kind = .subscript value slice) :
    ∃ i ty x k, t = .node i ty .subscript [x, k] [] [] ∧ x.id = value := by
  have hl := hf.label_kind
  rw [hk] at hl
  rcases hf.subscript_cases with ⟨i, ty, x, k, rfl⟩ | hne
  · exact ⟨i, ty, x, k, rfl, (Kind.subscript.inj hk).1⟩
  · exact absurd hl.symm hne

theorem Fits.target?_kind (hf : t.Fits) : t.kind.target? = if t.label.binds then t.heads.head?.map Tree.id
    else none := by
  obtain ⟨i, ty, l, hs, bs, os⟩ := t
  have h := ((fits_iff _).1 hf).1
  cases l with
  | assign =>
    obtain ⟨x, y, rfl⟩ := List.length_eq_two.1 h.1
    rfl
  | augAssign op =>
    obtain ⟨x, y, rfl⟩ := List.length_eq_two.1 h.1
    rfl
  | forIn =>
    obtain ⟨x, y, rfl⟩ := List.length_eq_two.1 h.1
    rfl
  | annAssign =>
    obtain ⟨x, xs, rfl⟩ := List.exists_cons_of_length_pos h.1
    rfl
  | _ =>
    rw [if_neg (by simp [Label.binds])]
    have hl := hf.label_kind
    cases hk : kind _ <;> first | rfl | (rw [hk] at hl; cases hl)

theorem Fits.exists_target {i : NodeId} (hf : t.Fits) (h : t.kind.target? = some i) :
    t.label.binds = true ∧ ∃ x xs, t.heads = x :: xs ∧ x.id = i := by
  rw [hf.target?_kind] at h
  split_ifs at h with hb
  obtain ⟨x, hx, rfl⟩ := Option.map_eq_some_iff.1 h
  obtain ⟨xs, hxs⟩ := List.head?_eq_some_iff.1 hx
  exact ⟨hb, x, xs, hxs, rfl⟩

theorem Fits.assigns_kind (hf : t.Fits) : t.kind.assigns = true ↔ t.label = .assign ∨
    ∃ op, t.label = .augAssign op := by
  rw [← hf.label_kind]
  cases t.kind <;> simp [Kind.assigns, Kind.label]

theorem Fits.links_kind (hf : t.Fits) :
    t.kind.links .body = t.body.map Tree.id ∧ t.kind.links .orelse = t.orelse.map Tree.id :=
  (Label.parts_kind hf.top).2.2

end Tree

namespace Frame

variable {f : Frame} {us : List Tree} {k : Tree}

/-- The frame with other trees around the place. -/
def around (f : Frame) (left right first second : List Tree) : Frame := { f with left, right, first, second }

theorem mem_kids (hk : k ∈ f.left ++ us ++ f.right) : k ∈ (f.plug us).kids := by
  unfold plug
  split
  · exact List.mem_append_left _ (List.mem_append_left _ hk)
  · exact List.mem_append_left _ (List.mem_append_right _ hk)
  · exact List.mem_append_right _ hk

theorem mem_lists (hp : f.part ≠ .heads) (hk : k ∈ f.left ++ us ++ f.right) :
    k ∈ (f.plug us).body ++ (f.plug us).orelse := by
  unfold plug
  split
  · contradiction
  · exact List.mem_append_left _ hk
  · exact List.mem_append_right _ hk

theorem links_kind (hf : (f.plug us).Fits) (hp : f.part ≠ .heads) :
    (f.plug us).kind.links f.part = f.left.map Tree.id ++ us.map Tree.id ++ f.right.map Tree.id := by
  obtain ⟨hb, ho⟩ := hf.links_kind
  obtain ⟨i, ty, l, part, left, right, first, second⟩ := f
  cases part with
  | heads => exact absurd rfl hp
  | body =>
    rw [hb]
    simp [plug]
  | orelse =>
    rw [ho]
    simp [plug]

end Frame

namespace Store

variable {s : Store} {p : Option NodeId} {t r : Tree} {i : NodeId}

/-- What is in a place and beside it is below the same node. -/
theorem Holds.beside {f : Frame} {us : List Tree} (h : s.Holds p (f.plug us)) (hf : (f.plug us).Fits) :
    ∀ k ∈ f.left ++ us ++ f.right, s.Holds (some f.id) k ∧ k.Fits := by
  intro k hk
  have hmem := Frame.mem_kids hk
  exact ⟨by simpa using h.kid hmem, hf.kid hmem⟩

/-- What is reached from the top of a tree is a part of the tree. -/
theorem Holds.exists_descends (h : s.Holds p t) (hf : t.Fits) (hd : s.Descends i t.id) :
    ∃ r q, r.Descends t ∧ s.Holds q r ∧ r.Fits ∧ r.id = i := by
  generalize hj : t.id = j at hd
  induction hd generalizing t p with
  | here => exact ⟨t, p, .here, h, hf, hj⟩
  | @member j value attr hk hd ih =>
    subst hj
    obtain ⟨i, ty, x, rfl, hx⟩ := hf.of_member (Option.some.inj (h.kind?.symm.trans hk))
    obtain ⟨r, q, hr, hrest⟩ := ih (h.kid (by simp)) (hf.kid (by simp)) hx
    exact ⟨r, q, hr.member, hrest⟩
  | @subscript j value slice hk hd ih =>
    subst hj
    obtain ⟨i, ty, x, k, rfl, hx⟩ := hf.of_subscript (Option.some.inj (h.kind?.symm.trans hk))
    obtain ⟨r, q, hr, hrest⟩ := ih (h.kid (by simp)) (hf.kid (by simp)) hx
    exact ⟨r, q, hr.subscript, hrest⟩

theorem Holds.of_descends (h : s.Holds p t) (hd : r.Descends t) : ∃ q, s.Holds q r := by
  induction hd generalizing p with
  | here => exact ⟨p, h⟩
  | member hd ih => exact ih (h.kid (by simp))
  | subscript hd ih => exact ih (h.kid (by simp))

theorem Holds.descends (h : s.Holds p t) (hd : r.Descends t) : s.Descends r.id t.id := by
  induction hd generalizing p with
  | here => exact .here
  | member hd ih => exact .member h.kind? (ih (h.kid (by simp)))
  | subscript hd ih => exact .subscript h.kind? (ih (h.kid (by simp)))

end Store

/-! ## What the walk makes of targets -/

/-- A read that is lowered binds the temporary that comes in its place. -/
theorem Hoisted.exists_read {c : Catalog} {ν : NodeId} {t : Tree} {v : StorageVar} {es : List Tree}
    {i temp : NodeId} {ty : Option Ty} (h : Hoisted c ν [t] es [tempRef i temp ty]) (ht : t.access? c = some v) :
    ∃ read slot ty' ks, readTree read temp slot v ty' ks ∈ es := by
  generalize hts : [tempRef i temp ty] = ts' at h
  cases h with
  | access i' temp' slot read hnew ht' =>
    obtain rfl := Option.some.inj (ht'.symm.trans ht)
    have hname : tempName temp = tempName temp' := by
      have := congrArg Tree.label (List.cons.inj hts).1
      simpa [tempRef, Tree.leaf] using this
    obtain rfl := tempName_injective hname
    exact ⟨read, slot, _, _, List.mem_append_right _ List.mem_cons_self⟩
  | inner hr ha =>
    obtain ⟨rfl, -⟩ := List.cons.inj hts
    have hl : t.label ≠ .subscript := by simp [← ha.label, tempRef, Tree.leaf]
    have hreach := (Tree.access?_eq_some_iff.1 ht).1
    rw [Tree.reach, Tree.base_of_label hl, hr] at hreach
    cases hreach

/-- A node that descends to storage is only rewritten to a temporary. -/
theorem Rewritten.exists_read {c : Catalog} {ν : NodeId} {t t' r : Tree} {v : StorageVar} {es : List Tree}
    (h : Rewritten c ν t es t') (hd : r.Descends t) (hr : r.receiver? c = some v) :
    ∃ i temp ty read slot ty' ks, t' = tempRef i temp ty ∧ readTree read temp slot v ty' ks ∈ es := by
  have hlabel : ∀ {l : Label}, t.label = l → l ≠ .subscript → (∀ attr, l ≠ .member attr) → False := by
    intro l hl hs hm
    cases hd with
    | here =>
      obtain ⟨attr, hl'⟩ := Tree.label_of_receiver? hr
      exact hm attr (hl.symm.trans hl')
    | member => exact hm _ hl.symm
    | subscript => exact hs hl.symm
  cases h with
  | read i temp ty ht h =>
    have hreach := (Tree.access?_eq_some_iff.1 ht).1
    rw [Tree.reach, ← hd.eq_base hr hreach, hr] at hreach
    obtain rfl := Option.some.inj hreach
    obtain ⟨read, slot, ty', ks, hread⟩ := h.exists_read ht
    exact ⟨i, temp, ty, read, slot, ty', ks, rfl, hread⟩
  | store h =>
    cases h
    exact (hlabel rfl (by simp) (by simp)).elim
  | combine h =>
    cases h
    exact (hlabel rfl (by simp) (by simp)).elim

namespace Walked

variable {c : Catalog} {ν : NodeId} {t t' r x : Tree} {v : StorageVar} {es ts us ts' : List Tree} {f : Frame}
  {D : Ctx}

theorem cons_inv (h : Walked c ν false (t :: ts) es ts') :
    ∃ e₁ t' e₂ us, es = e₁ ++ e₂ ∧ ts' = t' :: us ∧ Walked c ν false [t] e₁ [t'] ∧ Walked c ν false ts e₂ us := by
  cases h with
  | @rewrite _ t' e₁ _ e₂ us ht hts =>
    exact ⟨e₁, t', e₂, us, rfl, rfl, by simpa using Walked.rewrite ht .nil, hts⟩
  | @inner _ _ _ _ _ _ e₁ _ _ _ _ e₂ us hr ht hh hb ho hts =>
    exact ⟨e₁, _, e₂, us, rfl, rfl, by simpa using Walked.inner hr ht hh hb ho .nil, hts⟩

/-- In a statement list, what comes in the place of a statement is between what comes in the places of the others.
-/
theorem split (h : Walked c ν true (ts ++ t :: us) [] ts') :
    ∃ before es t' after, ts' = before ++ (es ++ t' :: after) ∧
    Walked c ν true ts [] before ∧ Walked c ν false [t] es [t'] ∧ Walked c ν true us [] after := by
  induction ts generalizing ts' with
  | nil =>
    cases h with
    | @stmt _ t' es _ after ht hus => exact ⟨[], es, t', after, rfl, .nil, ht, hus⟩
  | cons u ts ih =>
    cases h with
    | @stmt _ u' e _ rest hu hrest =>
      obtain ⟨before, es, t', after, rfl, hbefore, ht, hafter⟩ := ih hrest
      exact ⟨e ++ u' :: before, es, t', after, by simp, .stmt hu hbefore, ht, hafter⟩

/-- **What descends to storage is walked to what descends to a temporary,** after a read that binds the temporary.
-/
theorem descends (h : Walked c ν false [t] es [t']) (hd : r.Descends t) (hr : r.receiver? c = some v) :
    ∃ i temp ty read slot ty' ks, (tempRef i temp ty).Descends t' ∧ readTree read temp slot v ty' ks ∈ es := by
  -- what is rewritten is a temporary itself
  have hrewritten : ∀ {t t' : Tree} {es : List Tree}, Rewritten c ν t es t' → r.Descends t →
      ∃ i temp ty read slot ty' ks, (tempRef i temp ty).Descends t' ∧ readTree read temp slot v ty' ks ∈ es := by
    intro t t' es ht hd
    obtain ⟨i, temp, ty, read, slot, ty', ks, rfl, hread⟩ := ht.exists_read hd hr
    exact ⟨i, temp, ty, read, slot, ty', ks, .here, hread⟩
  induction hd generalizing es t' with
  | here =>
    cases h with
    | rewrite ht hts =>
      cases hts
      simpa using hrewritten ht .here
    | inner hnone =>
      rw [hnone] at hr
      cases hr
  | member hd ih =>
    cases h with
    | rewrite ht hts =>
      cases hts
      simpa using hrewritten ht hd.member
    | inner _ _ hh hb ho hts =>
      cases hts
      cases hb
      cases ho
      obtain ⟨e₁, x', e₂, us, rfl, rfl, hx, hnil⟩ := hh.cons_inv
      cases hnil
      obtain ⟨i, temp, ty, read, slot, ty', ks, hd', hread⟩ := ih hx
      exact ⟨i, temp, ty, read, slot, ty', ks, hd'.member, by simpa using hread⟩
  | subscript hd ih =>
    cases h with
    | rewrite ht hts =>
      cases hts
      simpa using hrewritten ht hd.subscript
    | inner _ _ hh hb ho hts =>
      cases hts
      cases hb
      cases ho
      obtain ⟨e₁, x', e₂, us, rfl, rfl, hx, hk⟩ := hh.cons_inv
      obtain ⟨e₃, k', e₄, us, rfl, rfl, -, hnil⟩ := hk.cons_inv
      cases hnil
      obtain ⟨i, temp, ty, read, slot, ty', ks, hd', hread⟩ := ih hx
      exact ⟨i, temp, ty, read, slot, ty', ks, hd'.subscript, by simp [hread]⟩

/-- A statement that is not an assignment to a state variable is walked part by part. -/
theorem inner_inv {i : NodeId} {ty : Option Ty} {l : Label} {hs bs os : List Tree}
    (h : Walked c ν false [.node i ty l hs bs os] es [t']) (hl : l.isStatement = true)
    (ht : l = .assign ∨ (∃ op, l = .augAssign op) → ∀ target ∈ hs.head?, target.access? c = none) :
    ∃ hs' bs' os', t' = .node i ty l hs' bs' os' ∧ Walked c ν false hs es hs' ∧ Walked c ν true bs [] bs' ∧
      Walked c ν true os [] os' := by
  cases h with
  | rewrite hrew hts =>
    cases hrew with
    | read i temp ty hacc =>
      have := Tree.isStatement_of_reach (Tree.access?_eq_some_iff.1 hacc).1
      rw [Tree.label_node, hl] at this
      cases this
    | store h =>
      obtain @⟨_, _, target, _, _, _, _, _, _, _, _, _, _, _, -, hacc⟩ := h
      rw [ht (.inl rfl) target (by simp)] at hacc
      cases hacc
    | combine h =>
      obtain @⟨_, _, _, target, _, _, _, _, _, _, _, _, _, _, _, _, _, _, _, _, _, _, _, -, hacc⟩ := h
      rw [ht (.inr ⟨_, rfl⟩) target (by simp)] at hacc
      cases hacc
  | inner _ _ hh hb ho hts =>
    cases hts
    exact ⟨_, _, _, rfl, by simpa using hh, hb, ho⟩

/-- An assignment to a state variable is walked to a write of its slot. -/
theorem exists_write {i : NodeId} {ty : Option Ty} {l : Label} {target value : Tree}
    (h : Walked c ν false [.node i ty l [target, value] [] []] es [t'])
    (hl : l = .assign ∨ ∃ op, l = .augAssign op) (hr : target.reach c = some v) :
    es ≠ [] ∧ ∃ j slot ty' ks y, t' = writeTree j slot v ty' ks y := by
  have hv : ∀ {v'}, target.access? c = some v' → v' = v := fun hacc =>
    Option.some.inj ((Tree.access?_eq_some_iff.1 hacc).1.symm.trans hr)
  cases h with
  | rewrite hrew hts =>
    cases hts
    refine ⟨by simpa using hrew.ne_nil, ?_⟩
    cases hrew with
    | read i temp ty hacc =>
      rw [Tree.access?, Tree.reach_of_assigns hl] at hacc
      cases hacc
    | store h =>
      obtain ⟨_, _, _, _, _, -, hacc, -, -⟩ := h
      obtain rfl := hv hacc
      exact ⟨_, _, _, _, _, rfl⟩
    | combine h =>
      obtain ⟨_, _, _, _, _, _, _, _, _, _, -, hacc, -, -, -⟩ := h
      obtain rfl := hv hacc
      exact ⟨_, _, _, _, _, rfl⟩
  | inner _ ht =>
    rw [ht hl target (by simp)] at hr
    cases hr

/-- What comes in the place of a statement is the statement, or a write. -/
theorem stmt_cases (h : Walked c ν false [t] es [t']) (hl : t.label.isStatement = true) :
    t'.id = t.id ∨ t'.label = .storageWrite := by
  cases h with
  | rewrite hrew hts =>
    cases hrew with
    | read i temp ty hacc =>
      have := Tree.isStatement_of_reach (Tree.access?_eq_some_iff.1 hacc).1
      rw [hl] at this
      cases this
    | store h =>
      cases h
      exact .inr rfl
    | combine h =>
      cases h
      exact .inr rfl
  | inner => exact .inl rfl

/-- The owner of a statement list keeps the list, with what each statement is walked to in its place. -/
theorem owner (h : Walked c ν false [f.plug [x]] es [t']) (hf : (f.plug [x]).Fits) (hp : f.part ≠ .heads) :
    ∃ first second before es' x' after, t' = (f.around (before ++ es') after first second).plug [x'] ∧
      Walked c ν true f.left [] before ∧ Walked c ν false [x] es' [x'] ∧ Walked c ν true f.right [] after := by
  obtain ⟨i, ty, l, part, left, right, first, second⟩ := f
  have hfits := ((Tree.fits_iff _).1 hf).1
  cases part with
  | heads => exact absurd rfl hp
  | body =>
    have hl : l.isStatement = true ∧ ¬ (l = .assign ∨ ∃ op, l = .augAssign op) := by
      cases l <;> simp [Frame.plug, Label.Fits, Label.isStatement] at hfits ⊢
    obtain ⟨hs', bs', os', rfl, hh, hb, ho⟩ := h.inner_inv hl.1 fun h => absurd h hl.2
    rw [List.append_assoc] at hb
    obtain ⟨before, es', x', after, rfl, hbefore, hx, hafter⟩ := hb.split
    exact ⟨hs', os', before, es', x', after, by simp [Frame.plug, Frame.around], hbefore, hx, hafter⟩
  | orelse =>
    have hl : l.isStatement = true ∧ ¬ (l = .assign ∨ ∃ op, l = .augAssign op) := by
      cases l <;> simp [Frame.plug, Label.Fits, Label.isStatement] at hfits ⊢
    obtain ⟨hs', bs', os', rfl, hh, hb, ho⟩ := h.inner_inv hl.1 fun h => absurd h hl.2
    rw [List.append_assoc] at ho
    obtain ⟨before, es', x', after, rfl, hbefore, hx, hafter⟩ := ho.split
    exact ⟨hs', bs', before, es', x', after, by simp [Frame.plug, Frame.around], hbefore, hx, hafter⟩

/-- A place that is inside of statement lists only is walked to such a place. -/
theorem place (h : Walked c ν false [D.plug x] es [t']) (hf : (D.plug x).Fits) (hp : ∀ f ∈ D, f.part ≠ .heads) :
    ∃ D' es' x', t' = Ctx.plug D' x' ∧ Walked c ν false [x] es' [x'] := by
  induction D generalizing x with
  | nil => exact ⟨[], es, t', rfl, h⟩
  | cons f D ih =>
    obtain ⟨D', e, y, rfl, hy⟩ := ih h hf fun g hg => hp g (List.mem_cons_of_mem _ hg)
    obtain ⟨first, second, before, es', x', after, rfl, -, hx, -⟩ :=
      hy.owner (Ctx.fits_of_plug hf) (hp f List.mem_cons_self)
    exact ⟨_ :: D', es', x', rfl, hx⟩

end Walked

/-- Statements are only inside of statement lists. -/
theorem Tree.Proper.part_ne {D : Ctx} {x : Tree} (h : (D.plug x).Proper) (hf : (D.plug x).Fits)
    (hx : x.label.isStatement = true) : ∀ f ∈ D, f.part ≠ .heads := by
  induction D generalizing x with
  | nil => simp
  | cons f D ih =>
    have hplug : (f.plug [x]).Proper := Tree.All.of_plug h
    have hpart : f.part ≠ .heads := by
      intro hheads
      have := hplug.top.1 x (by simp [Frame.plug, hheads])
      rw [hx] at this
      cases this
    have hlabel : (f.plug [x]).label.isStatement = true := by
      by_contra hne
      obtain ⟨hb, ho⟩ := (Ctx.fits_of_plug hf : (f.plug [x]).Fits).no_lists (by simpa using hne)
      cases hf' : f.part with
      | heads => exact hpart hf'
      | body => simp [Frame.plug, hf'] at hb
      | orelse => simp [Frame.plug, hf'] at ho
    exact List.forall_mem_cons.2 ⟨hpart, ih h hf hlabel⟩

namespace Store

variable {s s' : Store} {p : Option NodeId} {c : Catalog} {ν : NodeId} {ts ts' : List Tree}

/-- A statement list that was walked is lowered in its order. -/
theorem loweredTo_of_walked (h : Walked c ν true ts [] ts') (hl : ∀ t ∈ ts, t.label.isStatement = true)
    (h' : ∀ t ∈ ts', s.Holds p t ∧ t.Fits) : s.LoweredTo (ts.map Tree.id) (ts'.map Tree.id) := by
  induction ts generalizing ts' with
  | nil =>
    cases h
    exact .nil
  | cons t ts ih =>
    cases h with
    | @stmt _ t' es _ us ht hts =>
      rw [List.map_append, List.map_cons]
      refine .cons _ ?_ (ih hts (fun u hu => hl u (List.mem_cons_of_mem _ hu)) fun u hu => h' u (by simp [hu]))
      refine (ht.stmt_cases (hl t List.mem_cons_self)).imp_right fun hwrite => ?_
      obtain ⟨hheld, hfit⟩ := h' t' (by simp)
      have hk := hfit.label_kind
      rw [hwrite] at hk
      rw [hheld.kind?]
      cases hkind : t'.kind <;> rw [hkind] at hk <;> cases hk
      exact ⟨_, _, _, rfl⟩

end Store

/-! ## Statements that bind a part of a state variable -/

namespace Walked

variable {c : Catalog} {ν : NodeId} {u u' x r : Tree} {v : StorageVar} {xs es : List Tree}

/-- Whether the statement is an assignment whose target reaches a state variable. -/
def Assigns (c : Catalog) (u x : Tree) : Prop := (u.label = .assign ∨ ∃ op, u.label = .augAssign op) ∧
    x.reach c ≠ none

theorem binds (h : Walked c ν false [u] es [u']) (hf : u.Fits) (hl : u.label.binds = true) (hx : u.heads = x :: xs)
    (hd : r.Descends x) (hr : r.receiver? c = some v) :
    (Assigns c u x ∧ es ≠ [] ∧ ∃ j slot ty ks y, u' = writeTree j slot v ty ks y) ∨
      (¬ Assigns c u x ∧ ∃ x' xs' bs os i temp ty read slot ty' ks, u' = .node u.id u.ty u.label
        (x' :: xs') bs os ∧ (tempRef i temp ty).Descends x' ∧ readTree read temp slot v ty' ks ∈ es) := by
  obtain ⟨i, ty, l, hs, bs, os⟩ := u
  obtain rfl : hs = x :: xs := hx
  by_cases ha : Assigns c (.node i ty l (x :: xs) bs os) x
  · refine .inl ⟨ha, ?_⟩
    obtain ⟨y, z, he⟩ := hf.two_heads (by rcases ha.1 with h | ⟨op, h⟩ <;> rw [h] <;> exact fun _ _ _ h => h)
    obtain ⟨-, -, -, hheads, rfl, rfl⟩ := Tree.node.inj he
    obtain ⟨rfl, rfl⟩ := List.cons.inj hheads
    obtain ⟨v', hv'⟩ := Option.ne_none_iff_exists'.1 ha.2
    have hbase := hv'
    rw [Tree.reach, ← hd.eq_base hr hv', hr] at hbase
    exact h.exists_write ha.1 (hv'.trans hbase.symm)
  · refine .inr ⟨ha, ?_⟩
    obtain ⟨hs', bs', os', rfl, hh, -, -⟩ := h.inner_inv (by cases l <;> first | rfl | cases hl)
        fun hassign target htarget => by
      obtain rfl : x = target := by simpa using htarget
      rw [Tree.access?, not_not.1 fun hne => ha ⟨hassign, hne⟩]
      rfl
    obtain ⟨e₁, x', e₂, xs', rfl, rfl, hx, -⟩ := hh.cons_inv
    obtain ⟨i, temp, ty, read, slot, ty', ks, hd', hread⟩ := hx.descends hd hr
    exact ⟨x', xs', bs', os', i, temp, ty, read, slot, ty', ks, rfl, hd', List.mem_append_left _ hread⟩

end Walked

namespace Rooted

variable {c : Catalog} {ν : NodeId} {names : List String} {i : NodeId} {ty : Option Ty} {body body' : List Tree}
  {f : Frame} {C D : Ctx} {u : Tree}

/-- What has statement lists around a place is no declaration of a variable. -/
theorem label_plug (hf : (D.plug u).Fits) (hparts : ∀ f ∈ D, f.part ≠ .heads) (hne : D ≠ []) :
    ∀ a b e, (D.plug u).label ≠ .variableDecl a b e := by
  obtain ⟨D, f, rfl⟩ := (List.eq_nil_or_concat D).resolve_left hne
  intro a b e he
  rw [List.concat_eq_append, Ctx.plug_append] at hf he
  have hfits := ((Tree.fits_iff _).1 hf).1
  rw [he] at hfits
  have hpart := hparts f (by simp)
  cases hf' : f.part with
  | heads => exact hpart hf'
  | body => simp [Frame.plug, hf', Label.Fits] at hfits
  | orelse => simp [Frame.plug, hf', Label.Fits] at hfits

/-- **A statement below the body of the module** is in a statement list, and what comes in its place is in the list
that this becomes. -/
theorem exists_place (h : Rooted c ν names body body') (hC : Ctx.plug (f :: D) u = .node i ty .module [] body [])
    (hD : D ≠ []) (hf : (Tree.node i ty .module [] body []).Fits) (hp : (Tree.node i ty .module [] body []).Proper)
    (hl : u.label.isStatement = true) :
    f.part ≠ .heads ∧ ∃ D' first second before es u' after,
      Tree.node i ty .module [] body' [] = Ctx.plug D' ((f.around (before ++ es) after first second).plug [u']) ∧
      Walked c ν true f.left [] before ∧ Walked c ν false [u] es [u'] ∧ Walked c ν true f.right [] after := by
  have hparts : ∀ g ∈ f :: D, g.part ≠ .heads := Tree.Proper.part_ne (hC ▸ hp) (hC ▸ hf) hl
  obtain ⟨D, g, rfl⟩ := (List.eq_nil_or_concat D).resolve_left hD
  rw [List.concat_eq_append] at hparts
  rw [List.concat_eq_append, ← List.cons_append, Ctx.plug_append] at hC
  -- the declaration that the statement is in
  have hbody : Ctx.plug (f :: D) u ∈ body := by
    have : Ctx.plug (f :: D) u ∈ (Tree.node i ty .module [] body []).kids := by
      rw [← hC]
      simp
    simpa using this
  have hfits : (Ctx.plug (f :: D) u).Fits := hf.kid (by simpa using hbody)
  obtain ⟨d', hd', hw⟩ := h.exists_walked hbody
    (label_plug hfits (fun k hk => hparts k (List.mem_append_left [g] hk)) (by simp))
  obtain ⟨g', hg'⟩ := Tree.exists_frame (t := .node i ty .module [] body' []) (k := d') (by simpa using hd')
  obtain ⟨D', e, y, rfl, hy⟩ := Walked.place (D := D) (x := f.plug [u]) hw hfits
    fun k hk => hparts k (by simp [hk])
  obtain ⟨first, second, before, es, u', after, rfl, hbefore, hu, hafter⟩ :=
    hy.owner (Ctx.fits_of_plug hfits) (hparts f (by simp))
  refine ⟨hparts f (by simp), D' ++ [g'], first, second, before, es, u', after, ?_, hbefore, hu, hafter⟩
  rw [Ctx.plug_append]
  exact hg'.symm

/-- A statement for which something is put in front is in a statement list below the body of the module, and so is
what comes in its place. -/
theorem exists_owner (h : Rooted c ν names body body') (hC : C.plug u = .node i ty .module [] body [])
    (hf : (Tree.node i ty .module [] body []).Fits) (hp : (Tree.node i ty .module [] body []).Proper)
    (hl : u.label.binds = true) (hne : ∀ {es u'}, Walked c ν false [u] es [u'] → es ≠ []) :
    ∃ f D, C = f :: D ∧ f.part ≠ .heads ∧ ∃ D' first second before es u' after,
      Tree.node i ty .module [] body' [] =
        Ctx.plug D' ((f.around (before ++ es) after first second).plug [u']) ∧
      Walked c ν true f.left [] before ∧ Walked c ν false [u] es [u'] ∧ Walked c ν true f.right [] after := by
  have hstmt : u.label.isStatement = true := by
    cases hu : u.label <;> rw [hu] at hl <;> first | rfl | cases hl
  match C, hC with
  | [], hC =>
    rw [Ctx.plug_nil] at hC
    rw [hC] at hl
    cases hl
  | [g], hC =>
    -- nothing is put in front of a declaration
    have hbody : u ∈ body := by
      have : u ∈ (Tree.node i ty .module [] body []).kids := by
        rw [← hC]
        simp [Ctx.plug]
      simpa using this
    obtain ⟨d', -, hw⟩ := h.exists_walked hbody fun a b e he => by
      rw [he] at hl
      cases hl
    exact absurd rfl (hne hw)
  | f :: g :: D, hC =>
    exact ⟨f, g :: D, rfl, h.exists_place hC (by simp) hf hp hstmt⟩

end Rooted

namespace Store

/-- What a statement is walked to, in the list that its list is walked to, is in its place. -/
theorem inPlace_of_walked {s s' : Store} {c : Catalog} {ν : NodeId} {f : Frame} {D : Ctx} {p : Option NodeId}
    {u u' : Tree} {before es after first second : List Tree} (h : s.Holds D.parent (f.plug [u]))
    (hf : (f.plug [u]).Fits) (hproper : (f.plug [u]).Proper) (hp : f.part ≠ .heads)
    (h' : s'.Holds p ((f.around (before ++ es) after first second).plug [u']))
    (hf' : ((f.around (before ++ es) after first second).plug [u']).Fits)
    (hbefore : Walked c ν true f.left [] before) (hafter : Walked c ν true f.right [] after) :
    s.InPlace s' u.id (es.map Tree.id) u'.id := by
  have hstmt : ∀ k ∈ f.left ++ [u] ++ f.right, k.label.isStatement = true := fun k hk =>
    hproper.top.2 k (Frame.mem_lists hp hk)
  have hkids : ∀ k ∈ before ++ es ++ [u'] ++ after, s'.Holds (some f.id) k ∧ k.Fits := h'.beside hf'
  refine ⟨f.id, (f.plug [u]).kind, ((f.around (before ++ es) after first second).plug [u']).kind, f.part,
    f.left.map Tree.id, f.right.map Tree.id, before.map Tree.id, after.map Tree.id, ?_, ?_, hp, ?_, ?_,
    loweredTo_of_walked hbefore (fun k hk => hstmt k (by simp [hk])) fun k hk => hkids k (by simp [hk]),
    loweredTo_of_walked hafter (fun k hk => hstmt k (by simp [hk])) fun k hk => hkids k (by simp [hk])⟩
  · rw [← h.kind?, Frame.id_plug]
  · rw [← h'.kind?, Frame.id_plug, Frame.around]
  · rw [Frame.links_kind hf hp]
    simp
  · have := Frame.links_kind hf' hp
    simpa [Frame.around] using this

/-- A write of the slot of `v` is in the place of the statement `i`. -/
def WrittenInPlace (s s' : Store) (i : NodeId) (v : StorageVar) : Prop :=
  ∃ front j slot keys value, s.InPlace s' i front j ∧ s'.kind? j = some (.storageWrite slot keys value) ∧
    s'.kind? slot = some (.name v.slotName)

/-- The statement `i` is left in its place, and its target descends to a temporary that a read of the slot of `v`
in front of it has bound. -/
def ReadInPlace (s s' : Store) (i : NodeId) (v : StorageVar) : Prop :=
  ∃ front k k' target root temp, s.InPlace s' i front i ∧ s.kind? i = some k ∧ s'.kind? i = some k' ∧
    k'.label = k.label ∧
    k'.target? = some target ∧ s'.Descends root target ∧ s'.kind? root = some (.name (tempName temp)) ∧
    ∃ read ∈ front, ∃ bound slot keys, s'.kind? read = some (.storageRead bound slot keys) ∧
      s'.kind? bound = some (.name (tempName temp)) ∧ s'.kind? slot = some (.name v.slotName)

section Binding

variable {s s' : Store} {p q : Option NodeId} {c : Catalog} {ν : NodeId} {u x r : Tree} {xs es : List Tree}
  {v : StorageVar}

/-- Whether a statement assigns to a state variable is seen in the store. -/
theorem Holds.assigns_iff (hu : s.Holds p u) (hf : u.Fits) (hn : u.ids.Nodup) (hx : u.heads = x :: xs)
    (hd : r.Descends x) (hr : s.Holds q r) (hfr : r.Fits) (hv : r.receiver? c = some v) :
    (u.kind.assigns = true ∧ s.innermost x.id = r.id) ↔ Walked.Assigns c u x := by
  have hkid : x ∈ u.kids := by simp [Tree.kids, hx]
  have hux := hu.kid hkid
  have hfx := hf.kid hkid
  have hnx := Tree.nodup_kid hn hkid
  rw [Walked.Assigns, hf.assigns_kind]
  refine and_congr_right fun _ => ⟨fun heq => ?_, fun hreach => ?_⟩
  · rw [← hux.receiver?_innermost hfx hnx, heq, hr.receiver? hfr, hv]
    simp
  · obtain ⟨v', hv'⟩ := Option.ne_none_iff_exists'.1 hreach
    rw [hux.innermost hfx hnx, hd.eq_base hv hv']

theorem writtenInPlace_of_writeTree {i j slot : NodeId} {ty : Option Ty} {ks : List Tree} {y : Tree}
    {front : List NodeId} (h : s'.Holds p (writeTree j slot v ty ks y)) (hplace : s.InPlace s' i front j) :
    s.WrittenInPlace s' i v :=
  ⟨front, j, slot, _, _, hplace, h.kind?, (h.kid (k := slotLeaf slot v) (by simp [writeTree])).kind?⟩

theorem readInPlace_of_readTree {x' : Tree} {xs' bs os ks : List Tree} {i temp read slot : NodeId}
    {ty ty' : Option Ty} (hu : s.Holds q u) (hf : u.Fits) (hl : u.label.binds = true)
    (hu' : s'.Holds p (.node u.id u.ty u.label (x' :: xs') bs os))
    (hf' : (Tree.node u.id u.ty u.label (x' :: xs') bs os).Fits) (hd : (tempRef i temp ty).Descends x')
    (hread : s'.Holds p (readTree read temp slot v ty' ks)) (hmem : readTree read temp slot v ty' ks ∈ es)
    (hplace : s.InPlace s' u.id (es.map Tree.id) u.id) : s.ReadInPlace s' u.id v := by
  have hx' := hu'.kid (k := x') (by simp)
  obtain ⟨q, hroot⟩ := hx'.of_descends hd
  refine ⟨_, u.kind, _, x'.id, i, temp, hplace, hu.kind?, hu'.kind?, ?_, ?_, hx'.descends hd, hroot.kind?, read,
    List.mem_map_of_mem hmem, temp, slot, _, hread.kind?, ?_, ?_⟩
  · rw [hf'.label_kind, hf.label_kind]
    rfl
  · rw [hf'.target?_kind, Tree.label_node, if_pos hl]
    rfl
  · exact (hread.kid (k := tempLeaf temp ty') (by simp [readTree])).kind?
  · exact (hread.kid (k := slotLeaf slot v) (by simp [readTree])).kind?

end Binding

/-- If `m` is a module below `m`, it is the top of a module. -/
theorem Holds.label_module {s : Store} {T : Tree} (h : s.Holds none T) (hf : T.Fits) (hn : T.ids.Nodup)
    (hmodule : ∀ n ∈ s.preorder T.id, n.kind.isModule = true ↔ n.id = T.id) : T.label = .module := by
  refine hf.isModule_kind.1 ((hmodule (T.root none) ?_).2 rfl)
  rw [h.preorder_eq hf hn, Tree.nodes_eq]
  exact List.mem_cons_self

end Store

namespace Lowering

variable {w : Workspace Progress} {m : NodeId}

/-- **What becomes of a statement that binds a part of a state variable.** Let the target of a statement descend to
a member of `self` that names the state variable `v` of the module. If the pass comes to its end, a write of the
slot of `v` is in the place of the statement when this is an assignment whose target has only subscripts around the
member. Otherwise the statement is left in its place, with a target that descends to a temporary which a read of
the slot of `v` has bound. -/
theorem run_targets {cfg : Print.Config} {text : String} {n : Node} {target r : NodeId} (hs : w.store.Sound)
    (hv : w.store.verify m = .ok ()) (hmodule : ∀ n ∈ w.store.preorder m, n.kind.isModule = true ↔ n.id = m)
    (hrender : Print.render w.store cfg m = .ok text) (hn : n ∈ w.store.preorder m)
    (ht : n.kind.target? = some target) (hd : w.store.Descends r target) :
    Ends (run m) w
      (fun _ w' => ∀ v, w.store.receiver? (w.store.stateVars m) r = some v →
        if n.kind.assigns = true ∧ w.store.innermost target = r then w.store.WrittenInPlace w'.store n.id v
        else w.store.ReadInPlace w'.store n.id v)
      fun e _ => (∃ cause, e = .lowering cause) ∨ e = .structural .idsExhausted ∨
        ∃ decl, e = .structural (.inconsistent decl .targetNotName) := by
  obtain ⟨T, rfl, hf, hnodup, hT⟩ := (Store.verify_iff hs.nodup m).1 hv
  have hm := hT.no_module hf hnodup fun n hn => (hmodule n hn).1
  have hl := hT.label_module hf hnodup hmodule
  obtain ⟨i, ty, body, rfl⟩ : ∃ i ty body, T = .node i ty .module [] body [] := ⟨_, _, _, eq_module hf hl⟩
  obtain ⟨hproper, -⟩ := Print.proper_of_render hT hf hrender
  have hvars := hT.stateVars_eq hf hnodup
  -- the statement, its target and the member of `self` as trees
  rw [hT.preorder_eq hf hnodup] at hn
  obtain ⟨C, u, hC, rfl⟩ := hT.exists_of_mem_nodes hn
  have hu : w.store.Holds C.parent u := Store.Holds.inside (hC ▸ hT)
  have hfu : u.Fits := Ctx.fits_of_plug (hC ▸ hf)
  have hnu : u.ids.Nodup := ((Ctx.nodup_plug C u).1 (hC ▸ hnodup)).2.1
  obtain ⟨hbinds, x, xs, hx, rfl⟩ := hfu.exists_target ht
  have hkid : x ∈ u.kids := by simp [Tree.kids, hx]
  obtain ⟨r, q, hdx, hr, hfr, rfl⟩ := (hu.kid hkid).exists_descends (hfu.kid hkid) hd
  refine (run_spec hs hf hnodup hT fun k hk => hm k (by simpa using hk)).mono ?_ ?_
  · rintro - w' ⟨body', hran⟩ v hv
    have h' := hran.has
    have hT' := h'.holds
    have hf' := h'.fits
    rw [hvars, hr.receiver? hfr] at hv
    obtain ⟨f, D, rfl, hpart, D', first, second, before, es, u', after, hplug, hbefore, hwalk, hafter⟩ :=
      hran.rooted.exists_owner hC hf hproper hbinds fun hwalk => by
        rcases hwalk.binds hfu hbinds hx hdx hv with
          ⟨-, hne, -⟩ | ⟨-, _, _, _, _, _, _, _, _, _, _, _, -, -, hread⟩
        · exact hne
        · exact List.ne_nil_of_mem hread
    rw [← hC] at hT hf hproper
    rw [hplug] at hT' hf'
    have hplug' := hT'.inside
    have hfplug' := Ctx.fits_of_plug hf'
    have hplace := Store.inPlace_of_walked (Store.Holds.inside (C := D) hT) (Ctx.fits_of_plug hf)
      (Tree.All.of_plug hproper) hpart hplug' hfplug' hbefore hafter
    have hkids : ∀ k ∈ before ++ es ++ [u'] ++ after, w'.store.Holds (some f.id) k ∧ k.Fits :=
      hplug'.beside hfplug'
    obtain ⟨hu', hfu'⟩ := hkids u' (by simp)
    have hcond := hu.assigns_iff hfu hnu hx hdx hr hfr hv
    rw [Tree.root_kind, Tree.root_id]
    rcases hwalk.binds hfu hbinds hx hdx hv with
      ⟨hassigns, -, j, slot, ty', ks, y, rfl⟩ |
      ⟨hassigns, x', xs', bs, os, k, temp, ty', read, slot, ty'', ks, rfl, hd', hread⟩
    · rw [if_pos (hcond.2 hassigns)]
      exact Store.writtenInPlace_of_writeTree hu' hplace
    · rw [if_neg (mt hcond.1 hassigns)]
      exact Store.readInPlace_of_readTree hu hfu hbinds hu' hfu' hd' (hkids _ (by simp [hread])).1 hread hplace
  · rintro e w' (⟨-, he⟩ | ⟨-, -, hfault⟩)
    · exact he.imp_right .inr
    · cases hfault with
      | ids => exact .inr (.inl rfl)
      | lowering h => exact .inl ⟨_, rfl⟩
      | anchor h => exact absurd (fun d hd => (Tree.proper_iff.1 hproper).2.1 d hd) h

/-- A contract that assigns to a member of a state variable:
```
x: uint256
def f():
    self.x.part = 1
```
-/
def record : Store :=
  let stored : Tree := .node ⟨6⟩ none (.member "x") [.leaf ⟨7⟩ none (.name "self")] [] []
  .ofTree
    (.node ⟨0⟩ none .module [] [
      .node ⟨1⟩ (some (.uint 256)) (.variableDecl false false false) [.leaf ⟨2⟩ none (.name "x")] [] [],
      .node ⟨3⟩ none (.functionDef "f" .external .nonPayable) [] [
        .node ⟨4⟩ none .assign [.node ⟨5⟩ none (.member "part") [stored] [] [], .leaf ⟨8⟩ none (.int 1)]
          [] []] []] [])
    ⟨9⟩

theorem sound_record : record.Sound := ⟨by decide, by decide, by decide⟩

theorem verify_record : record.verify ⟨0⟩ = .ok () := by decide +kernel

theorem render_record : ∃ text, Print.render record {} ⟨0⟩ = .ok text := by decide +kernel

theorem run_record : ∃ w', run ⟨0⟩ ⟨record, {}⟩ = .ok () w' := by decide +kernel

theorem receiver_record : ∃ v, record.receiver? (record.stateVars ⟨0⟩) ⟨6⟩ = some v ∧ v.name = "x" := ⟨_, rfl, rfl⟩

theorem run_targets_record : ∃ w' v, run ⟨0⟩ ⟨record, {}⟩ = .ok () w' ∧
    record.receiver? (record.stateVars ⟨0⟩) ⟨6⟩ = some v ∧ v.name = "x" ∧ record.ReadInPlace w'.store ⟨4⟩ v := by
  obtain ⟨w', hrun⟩ := run_record
  obtain ⟨v, hv, hname⟩ := receiver_record
  obtain ⟨text, hrender⟩ := render_record
  obtain ⟨n, hn, hid, ht⟩ : ∃ n ∈ record.preorder ⟨0⟩, n.id = ⟨4⟩ ∧ n.kind.target? = some ⟨5⟩ := by decide
  have hs := sound_record
  have hverify := verify_record
  have hmodule : ∀ n ∈ record.preorder ⟨0⟩, n.kind.isModule = true ↔ n.id = ⟨0⟩ := by decide
  have hd : record.Descends ⟨6⟩ ⟨5⟩ := .member rfl .here
  have hinner : record.innermost ⟨5⟩ ≠ ⟨6⟩ := by decide
  refine ⟨w', v, hrun, hv, hname, ?_⟩
  -- the contract stays folded, or the run would be evaluated where its specification is applied
  generalize record = s at *
  have hread := (run_targets (w := ⟨s, {}⟩) hs hverify hmodule hrender hn ht hd).of_ok hrun v hv
  rwa [if_neg fun h => hinner h.2, hid] at hread

/-- The update of `self.x.part` is lost: what it assigns to is a temporary. -/
theorem run_loses_update : ∃ w', run ⟨0⟩ ⟨record, {}⟩ = .ok () w' ∧
    Print.render w'.store { useColors := false } ⟨0⟩ =
      .ok "x: storage<[] => uint256>\n\n@external\ndef f():\n    __tmp_9 = storage_read x_STORAGE\n    __tmp_9.part = 1\n" := by
  decide +kernel

end Lowering

end ContractTree
