import ContractTree.Proofs.Targets

/-!
Where references to storage stand. Whether a reference can be lowered is seen from its position (`Position`): how
many subscripts are applied to it, whether it is what an assignment stores to, and whether there is a site for new
statements. A tree can be walked exactly if every reference in it is in a place that allows it
(`Tree.allowed_plain_iff`).
-/

namespace ContractTree

/-- What decides whether a reference to storage can be lowered: how many subscripts are applied to it, whether an
assignment stores to what they give, and whether there is a site. -/
structure Position where
  subscripts : Nat
  stored : Bool
  sited : Bool

/-- Whether a statement of this sort is an assignment, augmented or not. -/
def Label.assigns : Label → Bool
  | .assign | .augAssign _ => true
  | _ => false

theorem Label.assigns_iff {l : Label} : l.assigns = true ↔ l = .assign ∨ ∃ op, l = .augAssign op := by
  cases l <;> simp [Label.assigns]

theorem Label.binds_of_assigns {l : Label} (h : l.assigns = true) : l.binds = true := by
  rcases Label.assigns_iff.1 h with rfl | ⟨op, rfl⟩ <;> rfl

namespace Frame

/-- Whether a subscript is applied to the place. -/
def subscripts (f : Frame) : Bool := f.label = .subscript && f.part = .heads && f.left.isEmpty

/-- Whether an assignment stores to the place. -/
def stores (f : Frame) : Bool := f.label.assigns && f.part = .heads && f.left.isEmpty

theorem heads_of_stores {f : Frame} (h : f.stores = true) (x : Tree) :
    (f.plug [x]).label.assigns = true ∧ (f.plug [x]).heads = x :: f.right := by
  obtain ⟨i, ty, l, part, left, right, first, second⟩ := f
  simp only [stores, Bool.and_eq_true, decide_eq_true_eq, List.isEmpty_iff] at h
  obtain ⟨⟨hl, rfl⟩, rfl⟩ := h
  exact ⟨hl, rfl⟩

theorem exists_stores {t x : Tree} {xs : List Tree} (hx : t.heads = x :: xs) (hl : t.label.assigns = true) :
    ∃ f : Frame, f.plug [x] = t ∧ f.stores = true := by
  obtain ⟨i, ty, l, hs, bs, os⟩ := t
  obtain rfl : hs = x :: xs := hx
  exact ⟨⟨i, ty, l, .heads, [], xs, bs, os⟩, rfl, by simpa [stores] using hl⟩

/-- The places in a node are those in its three lists. -/
theorem forall_plug_eq {P : Frame → Tree → Prop} {i : NodeId} {ty : Option Ty} {l : Label} {hs bs os : List Tree} :
    (∀ f k, plug f [k] = .node i ty l hs bs os → P f k) ↔
      (∀ left k right, hs = left ++ k :: right → P ⟨i, ty, l, .heads, left, right, bs, os⟩ k) ∧
      (∀ left k right, bs = left ++ k :: right → P ⟨i, ty, l, .body, left, right, hs, os⟩ k) ∧
      ∀ left k right, os = left ++ k :: right → P ⟨i, ty, l, .orelse, left, right, hs, bs⟩ k := by
  constructor
  · intro h
    refine ⟨?_, ?_, ?_⟩ <;>
    · rintro left k right rfl
      exact h _ k (by simp [plug])
  · rintro ⟨hh, hb, ho⟩ ⟨fi, fty, fl, part, left, right, first, second⟩ k hk
    cases part with
    | heads =>
      obtain ⟨rfl, rfl, rfl, rfl, rfl, rfl⟩ := Tree.node.inj hk
      exact hh left k right (by simp)
    | body =>
      obtain ⟨rfl, rfl, rfl, rfl, rfl, rfl⟩ := Tree.node.inj hk
      exact hb left k right (by simp)
    | orelse =>
      obtain ⟨rfl, rfl, rfl, rfl, rfl, rfl⟩ := Tree.node.inj hk
      exact ho left k right (by simp)

end Frame

namespace Position

/-- The place of what is not part of a chain. -/
abbrev plain (sited : Bool) : Position := ⟨0, false, sited⟩

/-- The place inside a node that is in this place itself. -/
def inner (p : Position) (f : Frame) : Position where
  subscripts := if f.subscripts then p.subscripts + 1 else 0
  stored := if f.subscripts then p.stored else f.stores
  sited := if f.part = .heads then p.sited else f.label ≠ .module

/-- Whether a reference to the variable can be lowered: what is stored to has a subscript for each key, and what is
read has no fewer. -/
def Allows (p : Position) (v : StorageVar) : Prop :=
  p.sited = true ∧ if p.stored then p.subscripts = v.depth else v.depth ≤ p.subscripts

theorem inner_of_stores {p : Position} {f : Frame} (h : f.stores = true) : p.inner f = ⟨0, true, p.sited⟩ := by
  simp only [Frame.stores, Bool.and_eq_true, decide_eq_true_eq, List.isEmpty_iff] at h
  obtain ⟨⟨hl, hpart⟩, hleft⟩ := h
  have hsub : f.label ≠ .subscript := fun he => by
    rw [he] at hl
    cases hl
  simp [inner, Frame.subscripts, Frame.stores, hsub, hl, hpart, hleft]

end Position

/-- The place at the end of a context, in a tree that is in the place `p`. -/
def Ctx.position (p : Position) : Ctx → Position
  | [] => p
  | f :: K => (position p K).inner f

theorem Ctx.position_append {p : Position} {D K : Ctx} :
    (D ++ K : Ctx).position p = D.position (K.position p) := by
  induction D with
  | nil => rfl
  | cons f D ih => exact congrArg (Position.inner · f) ih

theorem Ctx.sited_position {K : Ctx} : (K.position (.plain false)).sited = K.sited := by
  induction K with
  | nil => rfl
  | cons f K ih =>
    show (if f.part = .heads then _ else _) = (if f.part = .heads then _ else _)
    rw [ih]

/-! ## References in expressions -/

section Chains

variable {c : Catalog} {sited : Bool} {t : Tree} {v : StorageVar}

/-- In an expression, reads are all there is to lower. -/
theorem Hoistable.iff_walkable (hf : t.Fits) (hp : t.Proper) (hl : t.label.isStatement = false) :
    Hoistable c [t] ↔ Walkable c true [t] := by
  induction t with
  | step t ih =>
    obtain ⟨hb, ho⟩ := hf.no_lists hl
    obtain ⟨i, ty, l, hs, bs, os⟩ := t
    obtain rfl : bs = [] := hb
    obtain rfl : os = [] := ho
    have hkid : ∀ k ∈ hs, Hoistable c [k] ↔ Walkable c true [k] := fun k hk =>
      ih k (by simpa using hk) (hf.kid (by simpa using hk)) (hp.kid (by simpa using hk)) (hp.top.1 k hk)
    constructor
    · intro h
      cases h with
      | access ht hk _ => exact .read ht hk .nil
      | inner hr hk _ =>
        refine .inner hr ?_ (Walkable.iff_forall.2 fun k hk' => ?_) .nil .nil .nil
        · rintro (rfl | ⟨op, rfl⟩) <;> cases hl
        · exact (hkid k hk').1 (Hoistable.iff_forall.1 hk k (by simpa using hk'))
    · intro h
      cases h with
      | read ht hk _ => exact .access ht hk .nil
      | store hl' => rcases hl' with rfl | ⟨op, rfl⟩ <;> cases hl
      | inner hr _ hh _ _ _ =>
        refine .inner hr (Hoistable.iff_forall.2 fun k hk => ?_) .nil
        have hk : k ∈ hs := by simpa using hk
        exact (hkid k hk).2 (Walkable.iff_forall.1 hh k hk)

theorem Hoistable.keys_subscript {i : NodeId} {ty : Option Ty} {x k : Tree} :
    Hoistable c ((Tree.node i ty .subscript [x, k] [] []).links.map Link.key) ↔
      Hoistable c (x.links.map Link.key) ∧ Hoistable c [k] := by
  rw [Tree.links, List.map_append, Hoistable.iff_forall, List.forall_mem_append, ← Hoistable.iff_forall]
  simp

/-- A subscript that is no access is walked part by part. -/
theorem Walkable.subscript_iff {i : NodeId} {ty : Option Ty} {x k : Tree}
    (ha : (Tree.node i ty .subscript [x, k] [] []).access? c = none) :
    Walkable c sited [.node i ty .subscript [x, k] [] []] ↔ Walkable c sited [x] ∧ Walkable c sited [k] := by
  constructor
  · intro h
    exact Walkable.cons_iff.1 (h.parts ha (by simp)).1
  · rintro ⟨hx, hk⟩
    exact .inner (Tree.receiver?_of_label (by simp)) (by simp) (Walkable.cons_iff.2 ⟨hx, hk⟩) .nil .nil .nil

/-- A chain that reaches a variable is read as a whole, or has an access inside. -/
theorem Walkable.iff_of_reach (hf : t.Fits) (hp : t.Proper) (hv : t.reach c = some v) :
    Walkable c sited [t] ↔ sited = true ∧ v.depth ≤ t.links.length ∧ Hoistable c (t.links.map Link.key) := by
  induction t with
  | step t ih =>
    by_cases hd : v.depth = t.links.length
    · have ha : t.access? c = some v := Tree.access?_eq_some_iff.2 ⟨hv, hd⟩
      constructor
      · intro h
        obtain ⟨hs, hk⟩ := h.of_access hf ha
        exact ⟨hs, hd.le, hk⟩
      · rintro ⟨rfl, -, hk⟩
        exact .read ha hk .nil
    -- the outermost subscript looks into the value
    rcases hf.subscript_cases with ⟨i, ty, x, k, rfl⟩ | hl
    · have hx : x ∈ (Tree.node i ty .subscript [x, k] [] []).kids := by simp
      have hk : k ∈ (Tree.node i ty .subscript [x, k] [] []).kids := by simp
      have hlen : (Tree.node i ty .subscript [x, k] [] []).links.length = x.links.length + 1 := by
        simp [Tree.links]
      have hwhole : (Tree.node i ty .subscript [x, k] [] []).access? c = none := by
        rw [← Option.not_isSome_iff_eq_none, Option.isSome_iff_exists]
        rintro ⟨v', hv'⟩
        obtain ⟨hr, hd'⟩ := Tree.access?_eq_some_iff.1 hv'
        obtain rfl := Option.some.inj (hr.symm.trans hv)
        exact hd hd'
      rw [Walkable.subscript_iff hwhole, ih x hx (hf.kid hx) (hp.kid hx) hv, Hoistable.keys_subscript, hlen,
        Hoistable.iff_walkable (hf.kid hk) (hp.kid hk) (hp.top.1 k (by simp))]
      rw [hlen] at hd
      constructor
      · rintro ⟨⟨rfl, hle, hx⟩, hk⟩
        exact ⟨rfl, by omega, hx, hk⟩
      · rintro ⟨rfl, hle, hx, hk⟩
        exact ⟨⟨rfl, by omega, hx⟩, hk⟩
    · -- without subscripts there are too few
      rw [Tree.links_of_label hl] at hd ⊢
      refine iff_of_false (fun h => h.not_short hf ⟨v, hv, ?_⟩) fun h => hd (Nat.le_zero.1 h.2.1)
      rw [Tree.links_of_label hl, List.length_nil]
      exact Nat.pos_of_ne_zero hd

end Chains

/-! ## References in trees -/

namespace Tree

variable {c : Catalog} {p : Position} {t : Tree} {i : NodeId} {ty : Option Ty} {l : Label} {hs bs os : List Tree}

/-- Whether every reference to storage in the tree, which is in the place `p`, is in a place that allows it. -/
def Allowed (c : Catalog) (p : Position) (t : Tree) : Prop :=
  ∀ (D : Ctx) (u : Tree) (v : StorageVar), D.plug u = t → u.receiver? c = some v → (D.position p).Allows v

theorem allowed_iff : t.Allowed c p ↔
    (∀ v, t.receiver? c = some v → p.Allows v) ∧ ∀ (f : Frame) (k : Tree), f.plug [k] = t →
    k.Allowed c (p.inner f) := by
  constructor
  · intro h
    refine ⟨fun v hv => h [] t v rfl hv, fun f k hk D u v hu hv => ?_⟩
    have := h (D ++ [f]) u v (by rw [Ctx.plug_append, hu, Ctx.plug_cons, Ctx.plug_nil, hk]) hv
    rwa [Ctx.position_append] at this
  · rintro ⟨htop, hkid⟩ D u v hu hv
    rcases List.eq_nil_or_concat D with rfl | ⟨D, f, rfl⟩
    · obtain rfl : u = t := hu
      exact htop v hv
    · rw [List.concat_eq_append, Ctx.plug_append] at hu
      rw [List.concat_eq_append, Ctx.position_append]
      exact hkid f (Ctx.plug D u) hu D u v rfl hv

/-- A head that is neither subscripted nor stored to, and a statement, are in plain positions. -/
theorem allowed_node (hl : l ≠ .subscript) (ha : l.assigns = false)
    (hr : (node i ty l hs bs os).receiver? c = none) : (node i ty l hs bs os).Allowed c p ↔
      (∀ k ∈ hs, k.Allowed c (.plain p.sited)) ∧ ∀ k ∈ bs ++ os, k.Allowed c (.plain (l ≠ .module)) := by
  have hinner (f : Frame) (hfl : f.label = l) : p.inner f = .plain (if f.part = .heads then p.sited
      else l ≠ .module) := by
    simp [Position.inner, Frame.subscripts, Frame.stores, hfl, hl, ha]
  rw [allowed_iff, Frame.forall_plug_eq, List.forall_mem_append]
  simp only [hr, hinner, List.mem_iff_append, forall_exists_index, if_true, reduceCtorEq, if_false, false_implies,
    implies_true, true_and]
  refine and_congr ?_ (and_congr ?_ ?_) <;>
  · exact ⟨fun h k left right hk => h left k right hk, fun h left k right hk => h k left right hk⟩

/-- Of two heads, the first is in the position of what is subscripted or stored to. -/
theorem allowed_pair {x y : Tree} (hl : l = .subscript ∨ l.assigns = true) :
    (node i ty l [x, y] [] []).Allowed c p ↔
      x.Allowed c (if l = .subscript then { p with subscripts := p.subscripts + 1 } else ⟨0, true, p.sited⟩) ∧
        y.Allowed c (.plain p.sited) := by
  have hr : (node i ty l [x, y] [] []).receiver? c = none := receiver?_of_label fun attr he => by
    rcases hl with rfl | hl
    · cases he
    · rw [label_node] at he
      rw [he] at hl
      cases hl
  have hx : p.inner ⟨i, ty, l, .heads, [], [y], [], []⟩ =
      if l = .subscript then { p with subscripts := p.subscripts + 1 } else ⟨0, true, p.sited⟩ := by
    rcases hl with rfl | hl
    · rfl
    · rw [if_neg (by rintro rfl; cases hl)]
      exact Position.inner_of_stores (by simp [Frame.stores, hl])
  have hy : p.inner ⟨i, ty, l, .heads, [x], [], [], []⟩ = .plain p.sited := by
    simp [Position.inner, Frame.subscripts, Frame.stores]
  rw [allowed_iff, Frame.forall_plug_eq, ← hx, ← hy]
  constructor
  · rintro ⟨-, h, -⟩
    exact ⟨h [] x [y] rfl, h [x] y [] rfl⟩
  · rintro ⟨hfirst, hsecond⟩
    refine ⟨fun v hv => absurd (hr.symm.trans hv) (by simp), fun left k right hk => ?_, by simp, by simp⟩
    rcases left with _ | ⟨a, _ | ⟨b, left⟩⟩
    · obtain ⟨rfl, rfl⟩ := List.cons.inj hk
      exact hfirst
    · obtain ⟨rfl, hy⟩ := List.cons.inj hk
      obtain ⟨rfl, rfl⟩ := List.cons.inj hy
      exact hsecond
    · simp at hk

/-- What a chain has around its base, and what is in its keys, decides about it if it reaches a variable. -/
def Able (c : Catalog) (p : Position) (t : Tree) : Prop :=
  (∀ v, t.reach c = some v → ({ p with subscripts := p.subscripts + t.links.length } : Position).Allows v ∧
    Hoistable c (t.links.map Link.key)) ∧ (t.reach c = none → Walkable c p.sited [t])

theorem able_plain_iff {sited : Bool} (hf : t.Fits) (hp : t.Proper) :
    t.Able c (.plain sited) ↔ Walkable c sited [t] := by
  cases hr : t.reach c with
  | none => simp [Able, hr]
  | some v =>
    rw [Walkable.iff_of_reach hf hp hr]
    simp [Able, hr, Position.Allows, and_assoc]

theorem able_of_reach {v : StorageVar} (hv : t.reach c = some v) :
    t.Able c p ↔ p.sited = true ∧
      (if p.stored then p.subscripts + t.links.length = v.depth else v.depth ≤ p.subscripts + t.links.length) ∧
      Hoistable c (t.links.map Link.key) := by
  simp [Able, hv, Position.Allows, and_assoc]

theorem able_of_not_reach (hv : t.reach c = none) : t.Able c p ↔ Walkable c p.sited [t] := by simp [Able, hv]

theorem able_subscript {x k : Tree} (hk : Hoistable c [k] ↔ Walkable c true [k]) :
    (node i ty .subscript [x, k] [] []).Able c p ↔
      x.Able c { p with subscripts := p.subscripts + 1 } ∧ Walkable c p.sited [k] := by
  have hreach : (node i ty .subscript [x, k] [] []).reach c = x.reach c := rfl
  cases hv : x.reach c with
  | none =>
    have ha : (node i ty .subscript [x, k] [] []).access? c = none := by rw [access?, hreach, hv]; rfl
    rw [able_of_not_reach hv, able_of_not_reach (hreach.trans hv), Walkable.subscript_iff ha]
  | some v =>
    have hlen : (node i ty .subscript [x, k] [] []).links.length = x.links.length + 1 := by simp [links]
    rw [able_of_reach hv, able_of_reach (hreach.trans hv), Hoistable.keys_subscript, hk, hlen,
      Nat.add_right_comm, Nat.add_assoc p.subscripts]
    constructor
    · rintro ⟨hs, hd, hxk, hk⟩
      exact ⟨⟨hs, hd, hxk⟩, hs ▸ hk⟩
    · rintro ⟨⟨hs, hd, hxk⟩, hk⟩
      exact ⟨hs, hd, hxk, hs ▸ hk⟩

theorem able_assign {x y : Tree} (hl : l = .assign ∨ ∃ op, l = .augAssign op)
    (hy : Hoistable c [y] ↔ Walkable c true [y]) :
    (node i ty l [x, y] [] []).Able c p ↔ x.Able c ⟨0, true, p.sited⟩ ∧ Walkable c p.sited [y] := by
  rw [able_of_not_reach (reach_of_assigns hl)]
  cases hv : x.reach c with
  | none =>
    rw [able_of_not_reach hv]
    have ht : l = .assign ∨ (∃ op, l = .augAssign op) → ∀ target ∈ [x, y].head?, target.reach c = none := by
      simpa using fun _ => hv
    constructor
    · intro h
      have ha : (node i ty l [x, y] [] []).access? c = none := by rw [access?, reach_of_assigns hl]; rfl
      exact Walkable.cons_iff.1 (h.parts ha ht).1
    · rintro ⟨hx, hy⟩
      have hr : (node i ty l [x, y] [] []).receiver? c = none :=
        receiver?_of_label (by rcases hl with rfl | ⟨op, rfl⟩ <;> simp)
      exact .inner hr ht (Walkable.cons_iff.2 ⟨hx, hy⟩) .nil .nil .nil
  | some v =>
    rw [able_of_reach hv, if_pos rfl, Nat.zero_add]
    constructor
    · intro h
      obtain ⟨hs, hacc, hval, hkeys⟩ := h.of_target hl (by simp [hv])
      obtain ⟨v', hv'⟩ := Option.ne_none_iff_exists'.1 hacc
      obtain ⟨hr', hd⟩ := access?_eq_some_iff.1 hv'
      obtain rfl := Option.some.inj (hr'.symm.trans hv)
      exact ⟨⟨hs, hd.symm, hkeys⟩, hs ▸ hy.1 hval⟩
    · rintro ⟨⟨hs, hd, hkeys⟩, hval⟩
      have hs : p.sited = true := hs
      rw [hs] at hval ⊢
      exact .store hl (access?_eq_some_iff.2 ⟨hv, hd.symm⟩) (hy.2 hval) hkeys .nil

theorem able_node (hl : l ≠ .subscript) (ha : l.assigns = false) (hr : (node i ty l hs bs os).receiver? c = none) :
    (node i ty l hs bs os).Able c p ↔
      (∀ k ∈ hs, Walkable c p.sited [k]) ∧ ∀ k ∈ bs ++ os, Walkable c true [k] := by
  have hreach : (node i ty l hs bs os).reach c = none := by
    rw [reach, base_of_label (show (node i ty l hs bs os).label ≠ .subscript from hl), hr]
  have hacc : (node i ty l hs bs os).access? c = none := by rw [access?, hreach]; rfl
  have ht : ¬ (l = .assign ∨ ∃ op, l = .augAssign op) := by rintro (rfl | ⟨op, rfl⟩) <;> cases ha
  rw [able_of_not_reach hreach, List.forall_mem_append, ← Walkable.iff_forall, ← Walkable.iff_forall,
    ← Walkable.iff_forall]
  constructor
  · intro h
    exact h.parts hacc fun h => absurd h ht
  · rintro ⟨hh, hb, ho⟩
    exact .inner hr (fun h => absurd h ht) hh hb ho .nil

theorem clean_of_name {x : String} (hf : t.Fits) (hl : t.label = .name x) : t.Clean c := by
  obtain ⟨i, ty, l, hs, bs, os⟩ := t
  obtain rfl : l = .name x := hl
  obtain ⟨hh, hb, ho⟩ := ((fits_iff _).1 hf).1
  rw [List.length_eq_zero_iff] at hh hb ho
  refine all_iff.2 ⟨receiver?_of_label (by simp), ?_⟩
  simp only [heads_node, body_node, orelse_node] at hh hb ho
  simp [hh, hb, ho]

theorem Clean.allowed (h : t.Clean c) : t.Allowed c p := by
  rintro D u v rfl hv
  rw [(All.of_plug h : u.All _).top] at hv
  cases hv

/-- Every reference is in a position that allows it exactly if the tree can be walked. The induction goes along the
chains: a subscript passes its position on to what it is applied to. -/
theorem allowed_iff_able (hf : t.Fits) (hp : t.Proper) (hm : t.All fun u => u.label ≠ .module) :
    t.Allowed c p ↔ t.Able c p := by
  induction t generalizing p with
  | step t ih =>
    have hable : ∀ k ∈ t.kids, ∀ {p : Position}, k.Allowed c p ↔ k.Able c p := fun k hk =>
      ih k hk (hf.kid hk) (hp.kid hk) (hm.kid hk)
    have hplain : ∀ k ∈ t.kids, ∀ sited, k.Allowed c (.plain sited) ↔ Walkable c sited [k] := fun k hk sited =>
      (hable k hk).trans (able_plain_iff (hf.kid hk) (hp.kid hk))
    have hexpr : ∀ k ∈ t.heads, k ∈ t.kids → (Hoistable c [k] ↔ Walkable c true [k]) := fun k hk hk' =>
      Hoistable.iff_walkable (hf.kid hk') (hp.kid hk') (hp.top.1 k hk)
    rcases hf.subscript_cases with ⟨i, ty, x, k, rfl⟩ | hsub
    · rw [allowed_pair (.inl rfl), if_pos rfl, hable x (by simp), hplain k (by simp),
        able_subscript (hexpr k (by simp) (by simp))]
    obtain ⟨i, ty, l, hs, bs, os⟩ := t
    have hl : l ≠ .subscript := hsub
    by_cases ha : l.assigns = true
    · have hassign := Label.assigns_iff.1 ha
      obtain ⟨x, y, hxy⟩ := hf.two_heads (by rcases hassign with rfl | ⟨op, rfl⟩ <;> exact fun _ _ _ h => h)
      obtain ⟨-, -, -, rfl, rfl, rfl⟩ := node.inj hxy
      rw [allowed_pair (.inr ha), if_neg hl, hable x (by simp), hplain y (by simp),
        able_assign hassign (hexpr y (by simp) (by simp))]
    have ha : l.assigns = false := by simpa using ha
    cases hr : (node i ty l hs bs os).receiver? c with
    | some v =>
      -- a member of `self`, in which nothing refers to storage
      have hreach : (node i ty l hs bs os).reach c = some v := by rw [reach, base_of_label hsub, hr]
      rw [able_of_reach hreach, links_of_label hsub, allowed_iff]
      have hkids : ∀ (f : Frame) (k : Tree), f.plug [k] = node i ty l hs bs os → k.Allowed c (p.inner f) := by
        intro f k hk
        rcases hf.member_cases with ⟨_, _, attr, x, hx⟩ | hne
        · rw [hx, receiver?] at hr
          split_ifs at hr with hself
          have hxk : k ∈ (node i ty l hs bs os).kids := by rw [← hk]; simp
          obtain rfl : k = x := by rw [hx] at hxk; simpa using hxk
          exact (clean_of_name (hf.kid hxk) hself).allowed
        · rw [receiver?_of_label hne] at hr
          cases hr
      simp only [hr, Option.some.injEq, forall_eq', Position.Allows, List.length_nil, Nat.add_zero, List.map_nil]
      exact ⟨fun h => ⟨h.1.1, h.1.2, .nil⟩, fun h => ⟨⟨h.1, h.2.1⟩, hkids⟩⟩
    | none =>
      have hmod : decide (l ≠ .module) = true := by simpa using hm.top
      rw [allowed_node hl ha hr, able_node hl ha hr, hmod]
      exact and_congr (forall₂_congr fun k hk => hplain k (by simp [hk]) _)
        (forall₂_congr fun k hk => hplain k (by simpa using .inr (List.mem_append.1 hk)) _)

/-- **What can be walked.** -/
theorem allowed_plain_iff {sited : Bool} (hf : t.Fits) (hp : t.Proper) (hm : t.All fun u => u.label ≠ .module) :
    t.Allowed c (.plain sited) ↔ Walkable c sited [t] := (allowed_iff_able hf hp hm).trans (able_plain_iff hf hp)

end Tree

/-! ## Chains around a place -/

/-- What a subscript makes of the tree that it is applied to. -/
theorem Frame.plug_of_subscripts {f : Frame} {x : Tree} (h : f.subscripts = true) (hf : (f.plug [x]).Fits) :
    ∃ k, f.plug [x] = .node f.id f.ty .subscript [x, k] [] [] := by
  obtain ⟨i, ty, l, part, left, right, first, second⟩ := f
  simp only [subscripts, Bool.and_eq_true, decide_eq_true_eq, List.isEmpty_iff] at h
  obtain ⟨⟨rfl, rfl⟩, rfl⟩ := h
  rcases hf.subscript_cases with ⟨_, _, y, k, hk⟩ | hl
  · obtain ⟨-, -, -, hheads, rfl, rfl⟩ := Tree.node.inj hk
    obtain ⟨-, rfl⟩ := List.cons.inj hheads
    exact ⟨k, rfl⟩
  · exact absurd rfl hl

namespace Ctx

variable {p : Position} {D K : Ctx} {u : Tree}

/-- Whether there are only subscripts around the place, each applied to what is inside. -/
def Chained (D : Ctx) : Prop := ∀ f ∈ D, f.subscripts = true

/-- The subscripts around a place are counted, and change nothing else. -/
theorem Chained.position (h : D.Chained) : D.position p = { p with subscripts := p.subscripts + D.length } := by
  induction D with
  | nil => rfl
  | cons f D ih =>
    obtain ⟨hf, hD⟩ := List.forall_mem_cons.1 h
    have hpart : f.part = .heads := by
      simp only [Frame.subscripts, Bool.and_eq_true, decide_eq_true_eq] at hf
      exact hf.1.2
    rw [Ctx.position, ih hD, Position.inner, hf, if_pos hpart]
    rfl

/-- What subscripts around a tree make of it is a chain on the tree. -/
theorem Chained.plug (h : D.Chained) (hf : (D.plug u).Fits) (hu : u.label ≠ .subscript) :
    (D.plug u).base = u ∧ (D.plug u).links.length = D.length := by
  induction D using List.reverseRecOn with
  | nil => exact ⟨Tree.base_of_label hu, by rw [Ctx.plug_nil, Tree.links_of_label hu]; rfl⟩
  | append_singleton D f ih =>
    obtain ⟨hD, hsub⟩ := List.forall_mem_append.1 h
    rw [Ctx.plug_append] at hf ⊢
    obtain ⟨hbase, hlen⟩ := ih hD (Ctx.fits_of_plug (C := [f]) hf)
    obtain ⟨k, hk⟩ := Frame.plug_of_subscripts (hsub f List.mem_cons_self) hf
    rw [Ctx.plug_cons, Ctx.plug_nil, hk]
    exact ⟨hbase, by simp [Tree.links, hlen]⟩

/-- The subscripts around a place, and what is around them: an assignment, if something is stored to the place. -/
theorem exists_chained (K : Ctx) (sited : Bool) : ∃ D C : Ctx, K = D ++ C ∧ D.Chained ∧
    (K.position (.plain sited)).subscripts = D.length ∧
    ((K.position (.plain sited)).stored = true → ∃ f C', C = f :: C' ∧ f.stores = true) := by
  induction K with
  | nil => exact ⟨[], [], rfl, by simp [Chained], rfl, by simp [Ctx.position]⟩
  | cons f K ih =>
    rw [Ctx.position, Position.inner]
    cases hf : f.subscripts with
    | true =>
      obtain ⟨D, C, rfl, hD, hlen, hstored⟩ := ih
      exact ⟨f :: D, C, rfl, List.forall_mem_cons.2 ⟨hf, hD⟩, by simp [hlen], by simpa using hstored⟩
    | false => exact ⟨[], f :: K, rfl, by simp [Chained], rfl, fun hstored => ⟨f, K, rfl, by simpa using hstored⟩⟩

end Ctx

/-- A chain is its base with subscripts around it. -/
theorem Tree.Fits.exists_chained {t : Tree} (hf : t.Fits) :
    ∃ D : Ctx, D.Chained ∧ D.plug t.base = t ∧ D.length = t.links.length := by
  induction t with
  | step t ih =>
    rcases hf.subscript_cases with ⟨i, ty, x, k, rfl⟩ | hl
    · obtain ⟨D, hD, hplug, hlen⟩ := ih x (by simp) (hf.kid (by simp))
      refine ⟨D ++ [⟨i, ty, .subscript, .heads, [], [k], [], []⟩], ?_, ?_, ?_⟩
      · exact List.forall_mem_append.2 ⟨hD, List.forall_mem_singleton.2 rfl⟩
      · rw [Ctx.plug_append, show (Tree.node i ty .subscript [x, k] [] []).base = x.base from rfl, hplug]
        rfl
      · simp [hlen, Tree.links]
    · refine ⟨[], by simp [Ctx.Chained], by rw [Tree.base_of_label hl, Ctx.plug_nil], by
        rw [Tree.links_of_label hl]; rfl⟩

end ContractTree
