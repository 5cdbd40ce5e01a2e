import ContractTree.Proofs.Declare
import ContractTree.Proofs.Edited
import ContractTree.Proofs.Replacement
import ContractTree.Proofs.Toured

/-!
What a handler does to the tree of the module. A handler that visits a node may make nodes, put a new tree in front
of the statement around the node, put a new tree in the place of the node, and append a new tree to the module
(`Edit.Handled`). Its calls come to one deed (`Edit.Handled.exists_acts`): afterwards the store holds the tree of
the module with what was inserted, with the replacement and with what was appended (`Deed.result`), and it records
what replaced the node (`Acts`).
-/

namespace ContractTree

/-! ## The end of the module -/

namespace Tree

variable {t : Tree} {gs hs : List Tree}

@[simp] theorem addDecls_addDecls : (t.addDecls gs).addDecls hs = t.addDecls (gs ++ hs) := by
  cases t
  simp [addDecls]

theorem mem_ids_addDecls {i : NodeId} : i ∈ (t.addDecls gs).ids ↔ i ∈ t.ids ∨ i ∈ gs.flatMap ids := by
  cases t
  simp only [addDecls, ids_eq, kids_node, id_node, List.flatMap_append, List.mem_cons, List.mem_append]
  tauto

end Tree

namespace Ctx

/-- Puts trees at the end of the outermost list. -/
def extend : Ctx → List Tree → Ctx
  | [], _ => []
  | [f], gs => [{ f with right := f.right ++ gs }]
  | f :: g :: C, gs => f :: extend (g :: C) gs

variable {C : Ctx} {f : Frame} {gs hs es : List Tree} {x : Tree} {i a b : NodeId}

theorem extend_cons (h : C ≠ []) : extend (f :: C) gs = f :: extend C gs := by
  cases C with
  | nil => exact absurd rfl h
  | cons g C => rfl

theorem extend_ne_nil (h : C ≠ []) : C.extend gs ≠ [] := by
  match C with
  | [_] | _ :: _ :: _ => simp [extend]

@[simp] theorem extend_nil : C.extend [] = C := by
  induction C with
  | nil => rfl
  | cons f C ih =>
    cases C with
    | nil => simp [extend]
    | cons g C => rw [extend, ih]

@[simp] theorem extend_extend : (C.extend gs).extend hs = C.extend (gs ++ hs) := by
  induction C with
  | nil => rfl
  | cons f C ih =>
    cases C with
    | nil => simp [extend]
    | cons g C =>
      rw [extend_cons (by simp), extend_cons (extend_ne_nil (by simp)), ih]
      rfl

theorem emit_ne_nil (h : C ≠ []) : C.emit es ≠ [] := by
  cases C with
  | nil => exact absurd rfl h
  | cons f C =>
    rw [emit]
    split <;> simp

theorem emit_extend : (C.extend gs).emit es = (C.emit es).extend gs := by
  induction C with
  | nil => rfl
  | cons f C ih =>
    cases C with
    | nil => by_cases hf : f.part = .heads <;> simp [extend, emit, hf, Frame.push]
    | cons g C =>
      rw [extend_cons (by simp)]
      by_cases hf : f.part = .heads
      · rw [emit_heads hf, emit_heads hf, ih, extend_cons (emit_ne_nil (by simp))]
      · rw [emit_list hf, emit_list hf]
        rfl

/-- What is put in front of a place and at the end of the outermost list leaves what is behind the place. -/
theorem exists_up (hC : C ≠ []) (f : Frame) (es gs : List Tree) : ∃ (f' : Frame) (es' : List Tree),
    (emit (f :: C) es).extend gs = f' :: (C.emit es').extend gs ∧ f'.id = f.id ∧ f'.after = f.after := by
  by_cases hf : f.part = .heads
  · exact ⟨f, es, by rw [emit_heads hf, extend_cons (emit_ne_nil hC)], rfl, rfl⟩
  · exact ⟨f.push es, [], by rw [emit_list hf, extend_cons hC, emit_nil], rfl, rfl⟩

/-- Whether the outermost list around the place is a body, as it is in a module. -/
def Bodied (C : Ctx) : Prop := ∃ (I : Ctx) (f : Frame), C = I ++ [f] ∧ f.part = .body

theorem extend_concat (I : Ctx) : extend (I ++ [f]) gs = I ++ [{ f with right := f.right ++ gs }] := by
  induction I with
  | nil => rfl
  | cons g I ih => rw [List.cons_append, extend_cons (by simp), ih, List.cons_append]

theorem Bodied.ne_nil (h : C.Bodied) : C ≠ [] := by
  obtain ⟨I, f, rfl, -⟩ := h
  simp

theorem Bodied.cons (h : C.Bodied) : Bodied (f :: C) := by
  obtain ⟨I, g, rfl, hg⟩ := h
  exact ⟨f :: I, g, rfl, hg⟩

theorem Bodied.extend (h : C.Bodied) : (C.extend gs).Bodied := by
  obtain ⟨I, f, rfl, hf⟩ := h
  exact ⟨I, _, extend_concat I, hf⟩

theorem Bodied.emit (h : C.Bodied) : (C.emit es).Bodied := by
  induction C with
  | nil => exact absurd rfl h.ne_nil
  | cons f C ih =>
    obtain ⟨I, g, hI, hg⟩ := h
    cases I with
    | nil =>
      obtain ⟨rfl, rfl⟩ := List.cons.inj hI
      rw [emit_list (by simp [hg])]
      exact ⟨[], f.push es, rfl, hg⟩
    | cons x I =>
      obtain ⟨rfl, rfl⟩ := List.cons.inj hI
      rw [Ctx.emit]
      split
      · exact (ih ⟨I, g, rfl, hg⟩).cons
      · exact Bodied.cons ⟨I, g, rfl, hg⟩

theorem plug_extend (h : C.Bodied) : (C.extend gs).plug x = (C.plug x).addDecls gs := by
  obtain ⟨I, ⟨i, ty, l, part, left, right, first, second⟩, rfl, hf⟩ := h
  obtain rfl : part = .body := hf
  rw [extend_concat, plug_append, plug_append]
  simp [Frame.plug, Tree.addDecls]

/-- The outermost list around a place in a module is its body. -/
theorem bodied_of_plug (hC : C ≠ []) (hf : (C.plug x).Fits) (hl : (C.plug x).label = .module) : C.Bodied := by
  induction C generalizing x with
  | nil => exact absurd rfl hC
  | cons f C ih =>
    cases C with
    | cons g C => exact (ih (by simp) hf hl).cons
    | nil =>
      obtain ⟨i, ty, l, part, left, right, first, second⟩ := f
      obtain rfl : l = .module := by simpa using hl
      have hfit := ((Tree.fits_iff _).1 hf).1
      cases part with
      | body => exact ⟨[], _, rfl, rfl⟩
      | heads | orelse => simp [Frame.plug, Label.Fits] at hfit

/-- What encloses a place is in the first statement list on the way up. -/
theorem enclosing?_split (h : C.enclosing? i = some (a, b)) :
    ∃ (I : Ctx) (f : Frame) (O : Ctx), C = I ++ f :: O ∧ f.part ≠ .heads ∧ f.id = b ∧
      (∀ x : Tree, x.id = i → (I.plug x).id = a) ∧ ∀ es, C.emit es = I ++ f.push es :: O := by
  induction C generalizing i with
  | nil => cases h
  | cons f C ih =>
    rw [enclosing?] at h
    by_cases hf : f.part = .heads
    · rw [if_pos hf] at h
      obtain ⟨I, g, O, rfl, hg, hid, hstmt, hemit⟩ := ih h
      refine ⟨f :: I, g, O, rfl, hg, hid, fun x _ => hstmt _ (by simp), fun es => ?_⟩
      rw [emit_heads hf, hemit]
      rfl
    · rw [if_neg hf, Option.some.injEq, Prod.mk.injEq] at h
      obtain ⟨rfl, rfl⟩ := h
      exact ⟨[], f, C, rfl, hf, rfl, fun x hx => hx, fun es => emit_list hf⟩

theorem Bodied.enclosing? (h : C.Bodied) (i : NodeId) : ∃ a b, C.enclosing? i = some (a, b) := by
  induction C generalizing i with
  | nil => exact absurd rfl h.ne_nil
  | cons f C ih =>
    rw [Ctx.enclosing?]
    split
    · next hf =>
      obtain ⟨I, g, hI, hg⟩ := h
      cases I with
      | nil =>
        obtain ⟨rfl, -⟩ := List.cons.inj hI
        simp [hf] at hg
      | cons e I => exact ih ⟨I, g, (List.cons.inj hI).2, hg⟩ _
    · exact ⟨i, f.id, rfl⟩

/-- What was emitted is in the tree. -/
theorem Bodied.exists_plug_emit {u : Tree} (h : C.Bodied) (hu : u ∈ es) :
    ∃ D : Ctx, D.plug u = (C.emit es).plug x := by
  obtain ⟨a, b, henc⟩ := h.enclosing? x.id
  obtain ⟨I, f, O, rfl, -, -, -, hemit⟩ := enclosing?_split henc
  obtain ⟨g, hg⟩ := Tree.exists_frame (t := (f.push es).plug [I.plug x]) (k := u) (by simp [hu])
  exact ⟨g :: O, by rw [hemit, plug_append, plug_cons, plug_cons, hg]⟩

theorem ids_plug_emit (h : C.enclosing? i = some (a, b)) :
    ((C.emit es).plug x).ids.Perm (es.flatMap Tree.ids ++ (C.plug x).ids) := by
  obtain ⟨I, f, O, rfl, -, -, -, hemit⟩ := enclosing?_split h
  rw [hemit, plug_append, plug_append, plug_cons, plug_cons, Frame.plug_push]
  refine (Store.ids_plug_frame _).trans (List.Perm.trans ?_ ((Store.ids_plug_frame _).symm.append_left _))
  rw [List.flatMap_append]
  simp only [List.perm_iff_count, List.count_append]
  intro j
  omega

end Ctx

/-! ## Edits at a place of the module -/

namespace Store

variable {s s' : Store} {lo i : NodeId}

/-- A tree whose nodes all have identities from `lo` on. -/
structure Fresh (s : Store) (lo i : NodeId) : Prop where
  linked : s.Linked i
  new : ∀ path j, s.Reaches i path j → lo ≤ j

theorem Fresh.exists_tree (h : s.Fresh lo i) :
    ∃ u : Tree, u.id = i ∧ u.Fits ∧ u.ids.Nodup ∧ s.Holds (s.parent? i) u ∧ ∀ j ∈ u.ids, lo ≤ j := by
  obtain ⟨u, rfl, hfit, hn, hu⟩ := linked_iff.1 h.linked
  refine ⟨u, rfl, hfit, hn, hu, fun j hj => ?_⟩
  obtain ⟨path, hpath⟩ := (hu.mem_ids_iff hfit).1 hj
  exact h.new path j hpath

namespace HoldsModule

variable {C : Ctx} {T t u x : Tree} {p : Option NodeId} {anchor block : NodeId}

/-- Only the module itself has no parent. -/
theorem eq_of_parent?_eq_none (h : s.HoldsModule T) (hi : i ∈ T.ids) (hp : s.parent? i = none) : i = T.id := by
  obtain ⟨K, v, rfl, rfl⟩ := Tree.exists_place hi
  rw [h.holds.inside.parent?] at hp
  cases K with
  | nil => rfl
  | cons f C => simp at hp

/-- A tree is put in front of the statement around a place. -/
theorem emit (h : s.HoldsModule (C.plug x)) (hu : s.Holds p u) (hfit : u.Fits) (hn : u.ids.Nodup)
    (hout : ∀ i ∈ u.ids, i ∉ (C.plug x).ids) (henc : C.enclosing? x.id = some (anchor, block)) {b : Node}
    {k : Kind} (hb : s.find? block = some b) (hk : b.kind.insertStatement? u.id anchor = some k) :
    (s.placed block k u.id).HoldsModule ((C.emit [u]).plug x) := by
  obtain ⟨I, f, O, rfl, hf, rfl, hstmt, hemit⟩ := Ctx.enclosing?_split henc
  have hanchor := hstmt x rfl
  rw [hemit]
  rw [Ctx.plug_append] at h hout ⊢
  rw [Ctx.plug_cons] at h hout
  have hbfit : (f.plug [I.plug x]).Fits := Ctx.fits_of_plug h.fits
  have hbefore := (Frame.id_notMem (C := O) h.nodup).2.1
  rw [find?_frame h.holds, Option.some.injEq] at hb
  subst hb
  rw [← hanchor, Frame.insertStatement?_kind hbfit hf hbefore, Option.some.injEq] at hk
  subst hk
  have hfits : (f.plug [u, I.plug x]).Fits := by
    have : ((f.push [u]).plug [I.plug x]).Fits := Frame.push_fits hbfit hf (by simpa using hfit)
    rwa [Frame.plug_push] at this
  rw [Ctx.plug_cons, Frame.plug_push]
  exact h.placed hu hn hfits hout

/-- A tree takes a place of the module. -/
theorem refill {q : NodeId} {n b : Node} {k : Kind} (h : s.HoldsModule (C.plug t)) (hu : s.Holds p u)
    (hfit : u.Fits) (hn : u.ids.Nodup) (hne : u.id ≠ (C.plug t).id) (hmove : s.Movable (some t.id) u.id)
    (ht : s.find? t.id = some n) (hq : n.parent = some q) (hb : s.find? q = some b)
    (hk : b.kind.replaceChild? t.id u.id = some k) : (s.swapped q k t.id u.id).HoldsModule (C.plug u) := by
  have hparent : C.parent = some q := by rw [← h.holds.inside.parent?, parent?, ht, Option.bind_some, hq]
  obtain ⟨f, C, rfl⟩ : ∃ f D, C = f :: D := by
    cases C with
    | nil => simp at hparent
    | cons f D => exact ⟨f, D, rfl⟩
  obtain rfl : f.id = q := by simpa using hparent
  rw [find?_frame h.holds, Option.some.injEq] at hb
  subst hb
  rw [Frame.replaceChild?_kind (Ctx.fits_of_plug (C := C) h.fits) (Frame.id_notMem h.nodup).2.1,
    Option.some.injEq] at hk
  subst hk
  exact h.swapped hu hfit hn (h.apart_of_replaces hu hfit hn hmove hne)

/-- A tree is put at the end of the module. -/
theorem addDecls {b : Node} {body : List NodeId} (h : s.HoldsModule T) (hu : s.Holds p u) (hfit : u.Fits)
    (hn : u.ids.Nodup) (hout : ∀ i ∈ u.ids, i ∉ T.ids) (hb : s.find? T.id = some b) (hk : b.kind = .module body) :
    (s.placed T.id (.module (body ++ [u.id])) u.id).HoldsModule (T.addDecls [u]) := by
  rw [h.holds.top, Option.some.injEq] at hb
  subst hb
  obtain ⟨i, ty, ts, rfl, rfl⟩ := h.fits.exists_body hk
  let f : Frame := ⟨i, ty, .module, .body, ts, [], [], []⟩
  have hf : ∀ us, f.plug us = .node i ty .module [] (ts ++ us) [] := fun us => by simp [f, Frame.plug]
  have hfits : (f.plug [u]).Fits := by
    rw [hf, Tree.fits_iff]
    refine ⟨by simp [Label.Fits], fun k hk => ?_⟩
    simp only [Tree.kids_node, List.nil_append, List.append_nil, List.mem_append, List.mem_singleton] at hk
    rcases hk with hk | rfl
    · exact h.fits.kid (by simp [hk])
    · exact hfit
  have hkind : f.kind ([u].map Tree.id) = .module (ts.map Tree.id ++ [u.id]) := by simp [f, Frame.kind, Label.kind]
  have hplug : Tree.node i ty .module [] ts [] = Ctx.plug [] (f.plug []) := by simp [hf]
  rw [hplug] at h hout
  have := h.placed hu hn hfits hout
  rw [hkind, Ctx.plug_nil, hf] at this
  exact this

theorem block_mem (h : s.HoldsModule (C.plug x)) (henc : s.enclosingStatement? x.id = some (anchor, block)) :
    C.enclosing? x.id = some (anchor, block) ∧ block ∈ (C.plug x).ids := by
  rw [enclosingStatement?, enclosingWithin_eq h.holds h.fits h.nodup
    (Nat.le_of_lt (length_ctx_le h.holds h.nodup))] at henc
  refine ⟨henc, ?_⟩
  obtain ⟨I, f, O, rfl, -, rfl, -⟩ := Ctx.enclosing?_split henc
  rw [Ctx.plug_append]
  exact (Ctx.mem_ids_plug _ _ _).2 (.inl List.mem_cons_self)

end HoldsModule

theorem find?_placed_of_ne {q new : NodeId} {k : Kind} (hq : i ≠ q) (hnew : i ≠ new) :
    (s.placed q k new).find? i = s.find? i := by
  rw [find?_placed]
  simp [hq, hnew]

end Store

/-! ## Deeds -/

/-- The tree of the module after the deed, when the visited node was `t` in this place. -/
def Deed.result (d : Deed) (K : Ctx) (t : Tree) : Tree :=
  ((K.emit d.inserted).plug (d.replacement.getD t)).addDecls d.appended

/-- What a visit to the node of `t` in the place `K` did: the store holds the tree of the module after the deed,
and a node that was replaced is recorded and no longer attached. -/
structure Acts (K : Ctx) (t : Tree) (d : Deed) (e : Visit) : Prop where
  sound : e.after.Sound
  module : e.after.HoldsModule (d.result K t)
  root : K = [] → d.inserted = [] ∧ d.replacement = none
  moved : ∀ N ∈ d.replacement, e.after.isAttached t.id = false ∧ e.after.replacementOf? t.id = some N.id
  new : d.NewIn e

namespace Deed

variable {d : Deed} {K : Ctx} {t : Tree} {s : Store}

@[simp] theorem result_none : ({} : Deed).result K t = K.plug t := by simp [result]

theorem id_result (hroot : K = [] → d.replacement = none) : (d.result K t).id = (K.plug t).id := by
  rw [result, Tree.id_addDecls, Ctx.id_plug_emit]
  cases K with
  | nil => rw [hroot rfl]; rfl
  | cons f C => exact Ctx.id_plug_cons

/-- Below the module, the tree after the deed has a tree in the place. -/
theorem result_eq (hK : K.Bodied) :
    d.result K t = ((K.emit d.inserted).extend d.appended).plug (d.replacement.getD t) :=
  (Ctx.plug_extend hK.emit).symm

/-! ### One more tree -/

def insert (d : Deed) (u : Tree) : Deed := { d with inserted := d.inserted ++ [u] }

def replace (d : Deed) (u : Tree) : Deed := { d with replacement := some u }

def append (d : Deed) (u : Tree) : Deed := { d with appended := d.appended ++ [u] }

theorem ids_insert (u : Tree) : (d.insert u).ids.Perm (u.ids ++ d.ids) := by
  simp only [insert, ids, filling, List.flatMap_append, List.flatMap_cons, List.flatMap_nil, List.append_nil,
    List.perm_iff_count, List.count_append]
  intro i
  omega

theorem ids_replace (u : Tree) (h : d.replacement = none) : (d.replace u).ids.Perm (u.ids ++ d.ids) := by
  simp only [replace, ids, filling, h, Option.toList_some, Option.toList_none, List.flatMap_cons, List.flatMap_nil,
    List.append_nil, List.perm_iff_count, List.count_append]
  intro i
  omega

theorem ids_append (u : Tree) : (d.append u).ids.Perm (u.ids ++ d.ids) := by
  simp only [append, ids, filling, List.flatMap_append, List.flatMap_cons, List.flatMap_nil, List.append_nil,
    List.perm_iff_count, List.count_append]
  intro i
  omega

theorem result_insert (hK : K.Bodied) (u : Tree) :
    (d.insert u).result K t = (((K.emit d.inserted).extend d.appended).emit [u]).plug (d.replacement.getD t) := by
  rw [result_eq hK, Ctx.emit_extend, Ctx.emit_emit]
  rfl

theorem result_append (u : Tree) : (d.append u).result K t = (d.result K t).addDecls [u] := by
  rw [result, result, Tree.addDecls_addDecls]
  rfl

end Deed

/-! ## Handlers -/

namespace Edit

/-- Whether a handler may make the call, when it visits `n` in the module `m`, the store is `s`, `place` is the
node that is now where `n` was, and identities from `lo` on were made since the visit began. -/
def Primitive.Permitted (lo m n place : NodeId) (s : Store) : Primitive → Prop
  | .alloc kind _ => ∀ i ∈ kind.children, lo ≤ i
  | .leaf _ _ | .temp _ => True
  | .insertBefore stmt anchor block => s.Fresh lo stmt ∧ s.enclosingStatement? place = some (anchor, block)
  | .replace old new => old = n ∧ s.Fresh lo new
  | .appendDeclaration module decl => module = m ∧ s.Fresh lo decl
  | _ => False

/-- The node that is in the place after the call. -/
def Primitive.occupant (place : NodeId) : Primitive → NodeId
  | .replace _ new => new
  | _ => place

/-- The calls of a handler that visits `n` in the module `m`, the node that is then in the place of `n`, and the
store then. -/
inductive Handled (m n : NodeId) (s : Store) : List Primitive → NodeId → Store → Prop where
  | start : Handled m n s [] n s
  | call {calls : List Primitive} {place : NodeId} {s₁ s₂ : Store} {p : Primitive} {o : Option NodeId}
      (h : Handled m n s calls place s₁) (hp : p.Permitted s.nextId m n place s₁) (hrun : p.run s₁ = .ok o s₂) :
      Handled m n s (calls ++ [p]) (p.occupant place) s₂

def Primitive.inserted? : Primitive → Option NodeId
  | .insertBefore stmt _ _ => some stmt
  | _ => none

def Primitive.appended? : Primitive → Option NodeId
  | .appendDeclaration _ decl => some decl
  | _ => none

/-- The trees of the deed are those that the calls put into the tree of the module. -/
structure Comes (n : NodeId) (calls : List Primitive) (d : Deed) : Prop where
  inserted : d.inserted.map Tree.id = calls.filterMap Primitive.inserted?
  replaced : ∀ N, d.replacement.map Tree.id = some N ↔ .replace n N ∈ calls
  appended : d.appended.map Tree.id = calls.filterMap Primitive.appended?

/-- What holds between two calls of a handler that visits the node of `t` in the place `K`, when the calls so far
came to the deed `d`. -/
structure Midway (lo : NodeId) (K : Ctx) (t : Tree) (d : Deed) (s : Store) : Prop where
  sound : s.Sound
  grown : lo ≤ s.nextId
  module : s.HoldsModule (d.result K t)
  root : K = [] → d.inserted = [] ∧ d.replacement = none
  new : ∀ i ∈ d.ids, lo ≤ i ∧ i ∈ (d.result K t).ids
  nodup : d.ids.Nodup
  records : ∀ r ∈ s.replacements, r.1 < lo
  left : ∀ N ∈ d.replacement, s.find? t.id = some (t.root none) ∧ s.replacedBy? t.id = some N.id

section Calls

variable {m n place : NodeId} {K : Ctx} {t u : Tree} {d : Deed} {s₀ s s' : Store} {calls : List Primitive}
  {p : Primitive} {o : Option NodeId}

theorem Comes.quiet (h : Comes n calls d) (hi : p.inserted? = none) (ha : p.appended? = none)
    (hr : ∀ N, p ≠ .replace n N) : Comes n (calls ++ [p]) d := by
  refine ⟨by simp [h.inserted, hi], fun N => ?_, by simp [h.appended, ha]⟩
  rw [h.replaced N, List.mem_append, List.mem_singleton]
  exact ⟨.inl, fun hN => hN.resolve_right (Ne.symm (hr N))⟩

section Steps

/-! What each call does, in a visit that began with the store `s₀`. -/

variable (hs : s₀.Sound) (hT : s₀.HoldsModule (K.plug t)) (h : Midway s₀.nextId K t d s)

include hs hT

theorem lt_nextId_of_mem {i : NodeId} (hi : i ∈ (K.plug t).ids) : i < s₀.nextId := hs.below i (hT.holds.mem_ids hi)

include h

theorem Midway.id_lt : (d.result K t).id < s₀.nextId := by
  rw [Deed.id_result fun hK => (h.root hK).2]
  exact lt_nextId_of_mem hs hT (Tree.id_mem_ids _)

/-- A tree that was made in this visit and may be moved is apart from the tree of the module. -/
theorem Midway.apart {q : Option NodeId} (hu : s.Holds q u) (hnew : ∀ j ∈ u.ids, s₀.nextId ≤ j)
    (hmove : s.Movable none u.id) : ∀ i ∈ u.ids, i ∉ (d.result K t).ids := by
  refine h.module.apart_of_movable hu hmove fun he => ?_
  exact Nat.not_lt_of_le (hnew _ u.id_mem_ids) (he ▸ h.id_lt hs hT)

omit hs in
/-- A node that was replaced is not in the tree any more. -/
theorem Midway.notMem_of_replaced {N : Tree} (hN : N ∈ d.replacement) : t.id ∉ (d.result K t).ids := by
  intro hmem
  have hp : s.parent? t.id = none := by
    rw [Store.parent?, (h.left N hN).1]
    rfl
  have hid := h.module.eq_of_parent?_eq_none hmem hp
  rw [Deed.id_result fun hK => (h.root hK).2] at hid
  obtain ⟨rfl, -⟩ := Ctx.plug_inj (C := K) (D := []) (t := t) (u := K.plug t) rfl hT.nodup hid
  simp [(h.root rfl).2] at hN

/-- A call that leaves the tree and the nodes of before alone. -/
theorem Midway.quiet (hs' : s'.Sound) (hnext : s.nextId ≤ s'.nextId) (hrep : s'.replacements = s.replacements)
    (hfind : ∀ i ∈ s.ids, i ∈ (d.result K t).ids ∨ i < s₀.nextId → s'.find? i = s.find? i) :
    Midway s₀.nextId K t d s' := by
  refine ⟨hs', Nat.le_trans h.grown hnext, h.module.congr fun i hi => hfind i (h.module.holds.mem_ids hi)
    (.inl hi), h.root, h.new, h.nodup, by rw [hrep]; exact h.records, fun N hN => ?_⟩
  have ht : t.id < s₀.nextId := lt_nextId_of_mem hs hT (Ctx.id_mem_plug _ _)
  obtain ⟨hfound, hby⟩ := h.left N hN
  refine ⟨(hfind _ (Store.mem_ids_of_find? hfound) (.inr ht)).trans hfound, ?_⟩
  rw [Store.replacedBy?, hrep]
  exact hby

theorem Midway.added {node : Node} (hn : node.id = s.nextId) (hlt : s.nextId.next?.isSome) :
    Midway s₀.nextId K t d (s.added node) := by
  refine h.quiet hs hT (h.sound.added hn hlt) (Nat.le_of_lt (Store.nextId_lt_added hlt)) rfl fun i hi _ => ?_
  rw [Store.find?_added h.sound hn, if_neg]
  rintro rfl
  exact h.sound.fresh hi

theorem Midway.alloc {k : Kind} {ty : Option Ty} (hlt : s.nextId.next?.isSome) (hfree : ∀ i ∈ k.children, s.Free i)
    (hnew : ∀ i ∈ k.children, s₀.nextId ≤ i) :
    Midway s₀.nextId K t d ((s.added { id := s.nextId, ty, kind := k }).adopt s.nextId k.children) := by
  have hadded : Midway s₀.nextId K t d (s.added { id := s.nextId, ty, kind := k }) := h.added hs hT rfl hlt
  refine hadded.quiet hs hT (hadded.sound.of_ids (by simp) rfl rfl) (Nat.le_refl _) rfl fun i _ hi => ?_
  have hik : i ∉ k.children := by
    intro hik
    rcases hi with hi | hi
    · refine h.module.notMem_of_owner? (hfree i hik).2 (fun he => ?_) hi
      exact Nat.not_lt_of_le (hnew i hik) (he ▸ h.id_lt hs hT)
    · exact Nat.not_lt_of_le (hnew i hik) hi
  rw [Store.find?_adopt]
  simp [hik]

/-- A deed with one more tree, when the store holds the tree of the module with it. -/
theorem Midway.grow {d' : Deed} {q : NodeId} {k : Kind} (hu : u.ids.Nodup) (hnew : ∀ j ∈ u.ids, s₀.nextId ≤ j)
    (hout : ∀ i ∈ u.ids, i ∉ (d.result K t).ids) (hids : d'.ids.Perm (u.ids ++ d.ids))
    (hmod : (s.placed q k u.id).HoldsModule (d'.result K t))
    (hroot : K = [] → d'.inserted = [] ∧ d'.replacement = none)
    (hmem : ∀ i, i ∈ u.ids ∨ i ∈ (d.result K t).ids → i ∈ (d'.result K t).ids) (hq : q ∈ (d.result K t).ids)
    (hrep : d'.replacement = d.replacement) : Midway s₀.nextId K t d' (s.placed q k u.id) where
  sound := h.sound.of_ids (by simp) rfl rfl
  grown := h.grown
  module := hmod
  root := hroot
  new i hi := by
    rcases List.mem_append.1 (hids.mem_iff.1 hi) with hi | hi
    · exact ⟨hnew i hi, hmem i (.inl hi)⟩
    · exact ⟨(h.new i hi).1, hmem i (.inr (h.new i hi).2)⟩
  nodup := by
    refine hids.nodup_iff.2 (List.nodup_append'.2 ⟨hu, h.nodup, fun i hi hd => ?_⟩)
    exact hout i hi (h.new i hd).2
  records := h.records
  left N hN := by
    rw [hrep] at hN
    have ht : t.id < s₀.nextId := lt_nextId_of_mem hs hT (Ctx.id_mem_plug _ _)
    refine ⟨?_, (h.left N hN).2⟩
    rw [Store.find?_placed_of_ne, (h.left N hN).1]
    · rintro rfl
      exact h.notMem_of_replaced hT hN hq
    · intro he
      exact Nat.not_lt_of_le (hnew _ u.id_mem_ids) (he ▸ ht)

theorem Midway.insert {q : Option NodeId} {anchor block : NodeId} {b : Node} {k : Kind} (hu : s.Holds q u)
    (hfit : u.Fits) (hn : u.ids.Nodup) (hnew : ∀ j ∈ u.ids, s₀.nextId ≤ j) (hmove : s.Movable none u.id)
    (henc : s.enclosingStatement? (d.replacement.getD t).id = some (anchor, block)) (hb : s.find? block = some b)
    (hk : b.kind.insertStatement? u.id anchor = some k) :
    Midway s₀.nextId K t (d.insert u) (s.placed block k u.id) := by
  have hout := h.apart hs hT hu hnew hmove
  have h0 : K = [] → d.replacement = none := fun hK => (h.root hK).2
  have hK : K ≠ [] := by
    rintro rfl
    have hid : (d.replacement.getD t).id = (d.result [] t).id := by rw [Deed.id_result h0, h0 rfl]; rfl
    rw [hid] at henc
    have := (Store.HoldsModule.block_mem (C := []) h.module henc).1
    cases this
  have hbody := Ctx.bodied_of_plug hK hT.fits hT.label
  have hmod := h.module
  rw [Deed.result_eq hbody] at hmod hout
  obtain ⟨henc, hblock⟩ := hmod.block_mem henc
  refine h.grow hs hT hn hnew (by rwa [Deed.result_eq hbody]) (Deed.ids_insert u) ?_ (fun h => absurd h hK)
    (fun i hi => ?_) (by rwa [Deed.result_eq hbody]) rfl
  · rw [Deed.result_insert hbody]
    exact hmod.emit hu hfit hn hout henc hb hk
  · rw [Deed.result_insert hbody, (Ctx.ids_plug_emit henc).mem_iff, List.mem_append, ← Deed.result_eq hbody]
    simpa using hi

theorem Midway.append {q : Option NodeId} {b : Node} {body : List NodeId} (hu : s.Holds q u) (hfit : u.Fits)
    (hn : u.ids.Nodup) (hnew : ∀ j ∈ u.ids, s₀.nextId ≤ j) (hmove : s.Movable none u.id)
    (hb : s.find? (K.plug t).id = some b) (hk : b.kind = .module body) :
    Midway s₀.nextId K t (d.append u) (s.placed (K.plug t).id (.module (body ++ [u.id])) u.id) := by
  have hout := h.apart hs hT hu hnew hmove
  have hid : (d.result K t).id = (K.plug t).id := Deed.id_result fun hK => (h.root hK).2
  rw [← hid] at hb ⊢
  refine h.grow hs hT hn hnew hout (Deed.ids_append u) ?_ h.root (fun i hi => ?_) (Tree.id_mem_ids _) rfl
  · rw [Deed.result_append]
    exact h.module.addDecls hu hfit hn hout hb hk
  · rw [Deed.result_append, Tree.mem_ids_addDecls]
    simpa using hi.symm

theorem Midway.replace {q : Option NodeId} {node b : Node} {par : NodeId} {k : Kind} (hu : s.Holds q u)
    (hfit : u.Fits) (hn : u.ids.Nodup) (hnew : ∀ j ∈ u.ids, s₀.nextId ≤ j) (hmove : s.Movable (some t.id) u.id)
    (ht : s.find? t.id = some node) (hpar : node.parent = some par) (hb : s.find? par = some b)
    (hk : b.kind.replaceChild? t.id u.id = some k) :
    d.replacement = none ∧ Midway s₀.nextId K t (d.replace u) (s.swapped par k t.id u.id) := by
  have hnone : d.replacement = none := by
    cases hr : d.replacement with
    | none => rfl
    | some N =>
      rw [(h.left N hr).1, Option.some.injEq] at ht
      rw [← ht] at hpar
      cases hpar
  have hlt : ∀ i ∈ t.ids, i < s₀.nextId :=
    fun i hi => lt_nextId_of_mem hs hT ((Ctx.mem_ids_plug _ _ _).2 (.inr hi))
  have hne : u.id ≠ (d.result K t).id := fun he => Nat.not_lt_of_le (hnew _ u.id_mem_ids) (he ▸ h.id_lt hs hT)
  have hK : K ≠ [] := by
    rintro rfl
    have htop := h.module.holds.top
    rw [show (d.result [] t).id = t.id from Deed.id_result fun _ => hnone, ht, Option.some.injEq] at htop
    rw [htop] at hpar
    cases hpar
  have hbody := Ctx.bodied_of_plug hK hT.fits hT.label
  have hmod := h.module
  rw [Deed.result_eq hbody, hnone, Option.getD_none] at hmod hne
  have hmod' := hmod.refill hu hfit hn hne hmove ht hpar hb hk
  have hres : (d.replace u).result K t = ((K.emit d.inserted).extend d.appended).plug u := Deed.result_eq hbody
  generalize hC : (K.emit d.inserted).extend d.appended = C at hmod hmod' hres
  have hold : ∀ i ∈ d.ids, i ∈ Ctx.ids C := by
    intro i hi
    obtain ⟨hlo, hmem⟩ := h.new i hi
    rw [Deed.result_eq hbody, hnone, Option.getD_none, hC, Ctx.mem_ids_plug] at hmem
    exact hmem.resolve_right fun hit => Nat.not_lt_of_le hlo (hlt i hit)
  obtain ⟨-, -, hapart⟩ := (Ctx.nodup_plug C u).1 hmod'.nodup
  refine ⟨hnone, h.sound.swapped (Store.mem_ids_of_find? ht), h.grown, hres ▸ hmod', fun h => absurd h hK,
    fun i hi => ?_, ?_, fun r hr => ?_, fun N hN => ?_⟩
  · rw [hres, Ctx.mem_ids_plug]
    rcases List.mem_append.1 ((Deed.ids_replace u hnone).mem_iff.1 hi) with hi | hi
    · exact ⟨hnew i hi, .inr hi⟩
    · exact ⟨(h.new i hi).1, .inl (hold i hi)⟩
  · refine (Deed.ids_replace u hnone).nodup_iff.2 (List.nodup_append'.2 ⟨hn, h.nodup, fun i hi hd => ?_⟩)
    exact hapart i (hold i hd) hi
  · simp only [Store.swapped, Store.recordReplacement, List.mem_cons, List.mem_filter] at hr
    rcases hr with rfl | hr
    · exact hlt _ t.id_mem_ids
    · exact h.records r hr.1
  · obtain rfl : u = N := by simpa [Deed.replace] using hN
    refine ⟨?_, ?_⟩
    · have htop := hmod.holds.inside.top
      have hparent : C.parent = some par := by
        rw [ht, Option.some.injEq] at htop
        rw [← hpar, htop]
        rfl
      have hne : t.id ≠ par := by
        rintro rfl
        cases C with
        | nil => cases hparent
        | cons f C => exact (Frame.id_notMem hmod.nodup).1 (Option.some.inj hparent)
      rw [Store.find?_swapped, htop]
      simp [hne, Tree.root]
    · exact (Store.replacedBy?_recordReplacement ..).trans (if_pos rfl)

end Steps

/-- What a handler that visits the node of `t` in the place `K` did so far. -/
theorem Handled.exists_midway (hs : s₀.Sound) (hT : s₀.HoldsModule (K.plug t))
    (h : Handled (K.plug t).id t.id s₀ calls place s) :
    ∃ d, Midway s₀.nextId K t d s ∧ Comes t.id calls d ∧ place = (d.replacement.getD t).id := by
  induction h with
  | start =>
    refine ⟨{}, ⟨hs, Nat.le_refl _, by rwa [Deed.result_none],
      fun _ => ⟨rfl, rfl⟩, by simp [Deed.ids, Deed.filling], by simp [Deed.ids, Deed.filling],
      hs.replaced, by simp⟩, ⟨rfl, by simp, rfl⟩, rfl⟩
  | @call calls place s₁ s₂ p o h hp hrun ih =>
    obtain ⟨d, hd, hcomes, rfl⟩ := ih
    cases p.ends_run.of_ok hrun with
    | reserve | register | discard | setTy => exact hp.elim
    | alloc hlt hfree => exact ⟨d, hd.alloc hs hT hlt hfree hp, hcomes.quiet rfl rfl (by simp), rfl⟩
    | leaf hlt | temp hlt => exact ⟨d, hd.added hs hT rfl hlt, hcomes.quiet rfl rfl (by simp), rfl⟩
    | insertBefore hmove hb hk =>
      obtain ⟨hfresh, henc⟩ := hp
      obtain ⟨u, rfl, hfit, hn, hu, hnew⟩ := hfresh.exists_tree
      refine ⟨d.insert u, hd.insert hs hT hu hfit hn hnew hmove henc hb hk, ⟨?_, fun N => ?_, ?_⟩, rfl⟩
      · simp [Deed.insert, hcomes.inserted, Primitive.inserted?]
      · simpa [Deed.insert] using hcomes.replaced N
      · simp [Deed.insert, hcomes.appended, Primitive.appended?]
    | replace ht hpar hmove hb hk =>
      obtain ⟨rfl, hfresh⟩ := hp
      obtain ⟨u, rfl, hfit, hn, hu, hnew⟩ := hfresh.exists_tree
      obtain ⟨hnone, hd'⟩ := hd.replace hs hT hu hfit hn hnew hmove ht hpar hb hk
      refine ⟨d.replace u, hd', ⟨?_, fun N => ?_, ?_⟩, rfl⟩
      · simp [Deed.replace, hcomes.inserted, Primitive.inserted?]
      · have := hcomes.replaced N
        simp only [hnone, Option.map_none, reduceCtorEq, false_iff] at this
        simp [Deed.replace, this, eq_comm]
      · simp [Deed.replace, hcomes.appended, Primitive.appended?]
    | appendDeclaration hmove hb hk =>
      obtain ⟨rfl, hfresh⟩ := hp
      obtain ⟨u, rfl, hfit, hn, hu, hnew⟩ := hfresh.exists_tree
      refine ⟨d.append u, hd.append hs hT hu hfit hn hnew hmove hb hk, ⟨?_, fun N => ?_, ?_⟩, rfl⟩
      · simp [Deed.append, hcomes.inserted, Primitive.inserted?]
      · simpa [Deed.append] using hcomes.replaced N
      · simp [Deed.append, hcomes.appended, Primitive.appended?]

/-- **What a handler did.** Its calls came to a deed, unless it replaced a module. -/
theorem Handled.exists_acts {e : Visit} (hs : e.before.Sound) (hT : e.before.HoldsModule (K.plug t))
    (hn : t.id = e.node) (h : Handled (K.plug t).id e.node e.before calls place e.after)
    (hmodule : t.label = .module → ∀ N, .replace e.node N ∉ calls) : ∃ d, Acts K t d e ∧ Comes e.node calls d := by
  rw [← hn] at h hmodule ⊢
  obtain ⟨d, hd, hcomes, -⟩ := h.exists_midway hs hT
  refine ⟨d, ⟨hd.sound, hd.module, hd.root, fun N hN => ?_, hd.grown, hd.nodup, fun i hi => ?_⟩, hcomes⟩
  · obtain ⟨hfound, hby⟩ := hd.left N hN
    refine ⟨?_, ?_⟩
    · have hl : t.kind.isModule = false := by
        rw [← Bool.not_eq_true, (Ctx.fits_of_plug hT.fits).isModule_kind]
        exact fun hl => hmodule hl N.id ((hcomes.replaced N.id).1 (by rw [Option.mem_def.1 hN]; rfl))
      unfold Store.isAttached
      cases e.after.size with
      | zero => rfl
      | succ size =>
        rw [Store.attachedWithin, hfound]
        exact hl
    · have hlo : e.before.nextId ≤ N.id := by
        refine (hd.new _ (d.filling_subset_ids ?_)).1
        rw [Deed.filling, Option.mem_def.1 hN]
        simpa using N.id_mem_ids
      have hnone : e.after.replacedBy? N.id = none := by
        rw [Store.replacedBy?, List.lookup_eq_none_iff]
        intro r hr
        simpa using fun he : N.id = r.1 => Nat.not_lt_of_le hlo (he ▸ hd.records r hr)
      have hfixed : e.after.successor N.id = N.id := by rw [Store.successor, hnone, Option.getD_none]
      rw [Store.replacementOf?_eq hby, Function.iterate_fixed hfixed]
  · exact ⟨(hd.new i hi).1, hd.sound.below i (hd.module.holds.mem_ids (hd.new i hi).2)⟩

end Calls

end Edit

end ContractTree
