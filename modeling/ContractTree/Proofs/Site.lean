import ContractTree.Proofs.Chain
import ContractTree.Proofs.ForestEdit

/-!
Statements around a place. The nearest statement list above a place is where new statements for the place go:
`Ctx.site?` names it, and `Ctx.emit` puts statements there. An insertion at the site either is refused or emits its
statement (`Edit.insertBefore_site`), and the place stays below the same statement.
-/

namespace ContractTree

namespace Ctx

/-- The statement at or above a place that `i` is in, and the block that holds it; `none` at the top and in the
body of a module. -/
def site? : Ctx → NodeId → Option Site
  | [], _ => none
  | f :: C, i =>
    if f.part = .heads then site? C f.id else if f.label = .module then none else some { stmt := i, block := f.id }

/-- What is at or above a place that `i` is in and stands in a statement list, with the owner of the list. -/
def enclosing? : Ctx → NodeId → Option (NodeId × NodeId)
  | [], _ => none
  | f :: C, i => if f.part = .heads then enclosing? C f.id else some (i, f.id)

/-- Puts statements in front of the statement that the place is in. -/
def emit : Ctx → List Tree → Ctx
  | [], _ => []
  | f :: C, ts => if f.part = .heads then f :: emit C ts else f.push ts :: C

/-- Whether a place has a site. -/
def sited : Ctx → Bool
  | [] => false
  | f :: C => if f.part = .heads then sited C else f.label ≠ .module

/-- Whether what is in the place is no statement but a part of one. -/
def Headed (K : Ctx) : Prop := ∃ f C, K = f :: C ∧ f.part = .heads

variable {C D K : Ctx} {f : Frame} {i : NodeId} {σ : Site} {ts us : List Tree} {t x y : Tree}

theorem isSome_site? : (K.site? i).isSome = K.sited := by
  induction K generalizing i with
  | nil => rfl
  | cons f C ih =>
    unfold site? sited
    split
    · exact ih
    · by_cases hm : f.label = .module <;> simp [hm]

theorem not_sited_of_site? (h : K.site? i = none) : K.sited = false := by rw [← isSome_site? (i := i), h]; rfl

@[simp] theorem emit_nil : K.emit [] = K := by
  induction K with
  | nil => rfl
  | cons f C ih =>
    unfold emit
    split <;> simp [ih]

@[simp] theorem emit_emit : (K.emit ts).emit us = K.emit (ts ++ us) := by
  induction K with
  | nil => rfl
  | cons f C ih => by_cases hf : f.part = .heads <;> simp [emit, hf, ih]

@[simp] theorem site?_emit : (K.emit ts).site? i = K.site? i := by
  induction K generalizing i with
  | nil => rfl
  | cons f C ih =>
    by_cases hf : f.part = .heads
    · simp [emit, site?, hf, ih]
    · simp only [emit, site?, hf, if_false, Frame.part_push]
      rfl

@[simp] theorem sited_emit : (K.emit ts).sited = K.sited := by
  rw [← isSome_site? (i := ⟨0⟩), site?_emit, isSome_site?]

theorem emit_heads (hf : f.part = .heads) : emit (f :: C) ts = f :: emit C ts := by simp [emit, hf]

theorem emit_list (hf : f.part ≠ .heads) : emit (f :: C) ts = f.push ts :: C := by simp [emit, hf]

theorem site?_heads (hf : f.part = .heads) : site? (f :: C) i = site? C f.id := by simp [site?, hf]

@[simp] theorem parent_emit : (K.emit ts).parent = K.parent := by
  cases K with
  | nil => rfl
  | cons f C => by_cases hf : f.part = .heads <;> simp [emit, hf]

/-- The node at the top of a tree with a place does not depend on what is in the place. -/
theorem id_plug_cons : (plug (f :: C) x).id = (plug (f :: C) y).id := by
  induction C generalizing f x y with
  | nil => simp
  | cons g C ih => exact ih (f := g)

theorem id_plug_congr (h : x.id = y.id) : (C.plug x).id = (C.plug y).id := by
  cases C with
  | nil => exact h
  | cons f C => exact id_plug_cons

theorem id_plug_of_site (h : K.site? i = some σ) : (K.plug x).id = (K.plug y).id := by
  cases K with
  | nil => cases h
  | cons f C => exact id_plug_cons

theorem id_plug_emit : ((K.emit ts).plug x).id = (K.plug x).id := by
  induction K generalizing x with
  | nil => rfl
  | cons f C ih =>
    by_cases hf : f.part = .heads
    · rw [emit_heads hf]
      exact ih
    · rw [emit_list hf]
      cases C with
      | nil => simp
      | cons g C => exact id_plug_cons (f := g)

theorem label_plug_cons : (plug (f :: C) x).label = (plug (f :: C) y).label := by
  induction C generalizing f x y with
  | nil => simp
  | cons g C ih => exact ih (f := g)

theorem label_plug_emit : ((K.emit ts).plug x).label = (K.plug x).label := by
  induction K generalizing x with
  | nil => rfl
  | cons f C ih =>
    by_cases hf : f.part = .heads
    · rw [emit_heads hf]
      exact ih
    · rw [emit_list hf]
      cases C with
      | nil => simp
      | cons g C => exact label_plug_cons (f := g)

theorem Headed.emit (h : (D ++ K).Headed) : (D ++ K.emit ts).Headed := by
  obtain ⟨f, C, he, hf⟩ := h
  cases D with
  | nil =>
    obtain rfl : K = f :: C := he
    exact ⟨f, Ctx.emit C ts, emit_heads hf, hf⟩
  | cons g D =>
    obtain ⟨rfl, -⟩ := List.cons.inj he
    exact ⟨g, D ++ K.emit ts, rfl, hf⟩

@[simp] theorem headed_emit : (K.emit ts).Headed ↔ K.Headed := by
  cases K with
  | nil => rfl
  | cons f C =>
    by_cases hf : f.part = .heads
    · exact ⟨fun _ => ⟨f, C, rfl, hf⟩, fun _ => ⟨f, emit C ts, emit_heads hf, hf⟩⟩
    · simp [Headed, emit, hf]

/-- What has a site and is not a part of a statement is itself one, of the block at the site. -/
theorem exists_block_of_not_headed (hσ : K.site? i = some σ) (h : ¬ K.Headed) :
    ∃ b O, K = b :: O ∧ b.part ≠ .heads ∧ b.id = σ.block := by
  cases K with
  | nil => cases hσ
  | cons f C =>
    have hf : f.part ≠ .heads := fun hf => h ⟨f, C, rfl, hf⟩
    refine ⟨f, C, rfl, hf, ?_⟩
    by_cases hm : f.label = .module
    · simp [site?, hf, hm] at hσ
    · rw [← Option.some.inj (show some (Site.mk i f.id) = some σ by simpa [site?, hf, hm] using hσ)]

/-- A site is in the first statement list on the way up. -/
theorem site?_split (h : K.site? i = some σ) :
    ∃ (I : Ctx) (b : Frame) (O : Ctx), K = I ++ b :: O ∧ b.part ≠ .heads ∧ b.label ≠ .module ∧ b.id = σ.block ∧
      (∀ x : Tree, x.id = i → (I.plug x).id = σ.stmt) ∧ ∀ ts, K.emit ts = I ++ b.push ts :: O := by
  induction K generalizing i with
  | nil => cases h
  | cons f C ih =>
    by_cases hf : f.part = .heads
    · rw [site?_heads hf] at h
      obtain ⟨I, b, O, rfl, hb, hm, hid, hstmt, hemit⟩ := ih h
      refine ⟨f :: I, b, O, rfl, hb, hm, hid, fun x _ => hstmt _ (by simp), fun ts => ?_⟩
      rw [emit_heads hf, hemit]
      rfl
    · have hm : f.label ≠ .module := by
        intro hm
        simp [site?, hf, hm] at h
      obtain rfl : Site.mk i f.id = σ := by simpa [site?, hf, hm] using h
      exact ⟨[], f, C, rfl, hf, hm, rfl, fun x hx => hx, fun ts => emit_list hf⟩

theorem hasBlock_of_site? (h : K.site? i = some σ) : (K.plug x).HasBlock σ.block := by
  obtain ⟨I, b, O, rfl, hb, -, hid, -⟩ := site?_split h
  exact ⟨b, O, I.plug x, plug_append _ _ _, hid, hb⟩

/-- The site of a part of a statement does not depend on what is in the place. -/
theorem site?_plug_of_headed (hK : (D ++ K).Headed) (h : K.site? (D.plug x).id = some σ) :
    K.site? (D.plug y).id = some σ := by
  cases D with
  | nil =>
    obtain ⟨f, C, rfl, hf⟩ := hK
    rwa [site?_heads hf] at h ⊢
  | cons g D => rwa [id_plug_cons (y := x)]

/-- Whether what is in the place is itself a statement of a block that is not a module. -/
def InBlock (K : Ctx) : Prop := ∃ b O, K = b :: O ∧ b.part ≠ .heads ∧ b.label ≠ .module

theorem inBlock_of_emit (hσ : K.site? i = some σ) (h : ∃ b O, K.emit ts = b :: O ∧ b.part ≠ .heads) :
    K.InBlock := by
  obtain ⟨b, O, hb, hp⟩ := h
  cases K with
  | nil => cases hσ
  | cons f C =>
    have hf : f.part ≠ .heads := by
      intro hf
      rw [emit_heads hf] at hb
      obtain ⟨rfl, -⟩ := List.cons.inj hb
      exact hp hf
    refine ⟨f, C, rfl, hf, fun hm => ?_⟩
    simp [site?, hf, hm] at hσ

end Ctx

/-! ## Sites in a store -/

namespace Store

variable {s : Store} {C K : Ctx} {t : Tree} {i : NodeId} {p : Option NodeId}

theorem length_ctx_le (h : s.Holds none (K.plug t)) (hn : (K.plug t).ids.Nodup) : K.length < s.size := by
  have hK : ∀ C : Ctx, C.length ≤ C.ids.length := by
    intro C
    induction C with
    | nil => simp
    | cons f C ih =>
      simp only [Ctx.ids, List.length_cons, List.length_append]
      omega
  have h1 := h.length_le hn
  have h2 := (Ctx.ids_plug K t).length_eq
  have h3 := hK K
  rw [List.length_append, Tree.ids_eq t, List.length_cons] at h2
  omega

theorem find?_frame {f : Frame} (h : s.Holds none (Ctx.plug (f :: C) t)) :
    s.find? f.id = some { id := f.id, parent := C.parent, ty := f.ty, kind := f.kind [t.id] } :=
  (holds_plug_frame.1 h).2.1

/-- The nearest statement list is read off the context. -/
theorem enclosingWithin_eq {fuel : Nat} (h : s.Holds none (K.plug t)) (hf : (K.plug t).Fits)
    (hn : (K.plug t).ids.Nodup) (hfuel : K.length ≤ fuel) : s.enclosingWithin fuel t.id = K.enclosing? t.id := by
  induction K generalizing t fuel with
  | nil =>
    cases fuel with
    | zero => rfl
    | succ fuel =>
      rw [Ctx.plug_nil] at h
      rw [enclosingWithin, h.parent?]
      rfl
  | cons f C ih =>
    obtain ⟨fuel, rfl⟩ : ∃ n, fuel = n + 1 := ⟨fuel - 1, by simp at hfuel; omega⟩
    obtain ⟨-, -, hafter⟩ := Frame.id_notMem hn
    have hholds := Frame.holdsStatement_kind (Ctx.fits_of_plug (C := C) hf) hafter
    rw [enclosingWithin, (Holds.inside h).parent?, Ctx.parent_cons, Option.bind_eq_bind, Option.bind_some,
      find?_frame h, Option.bind_eq_bind, Option.bind_some, Ctx.enclosing?]
    by_cases hp : f.part = .heads
    · have : (f.kind [t.id]).holdsStatement t.id = false := by
        rw [← Bool.not_eq_true, hholds]
        simp [hp]
      simp only [this, Bool.false_eq_true, if_false, hp, if_true]
      rw [← Frame.id_plug f [t]]
      exact ih h hf hn (by simp at hfuel; omega)
    · simp only [hholds.2 hp, if_true, hp, if_false]

theorem enclosingWithin_plug {fuel : Nat} (h : s.Holds none (K.plug t)) (hf : (K.plug t).Fits)
    (hn : (K.plug t).ids.Nodup) (hfuel : K.length ≤ fuel) :
    ((s.enclosingWithin fuel t.id).bind fun r =>
      if (s.kind? r.2).any Kind.isModule then none else some (Site.mk r.1 r.2)) = K.site? t.id := by
  rw [enclosingWithin_eq h hf hn hfuel]
  induction K generalizing t fuel with
  | nil => rfl
  | cons f C ih =>
    rw [Ctx.enclosing?]
    by_cases hp : f.part = .heads
    · rw [if_pos hp, Ctx.site?_heads hp, ← Frame.id_plug f [t]]
      exact ih h hf hn (Nat.le_of_succ_le hfuel)
    · have hmod : (s.kind? f.id).any Kind.isModule = true ↔ f.label = .module := by
        have hl := (Ctx.fits_of_plug (C := C) hf).isModule_kind
        rw [Frame.kind_plug, Frame.label_plug] at hl
        rw [Store.kind?, find?_frame h]
        exact hl
      simp only [hp, if_false, Option.bind_some, hmod, Ctx.site?]

/-- The site of an access is read off its context. -/
theorem site_plug {a : Access} (h : s.Holds none (K.plug t)) (hf : (K.plug t).Fits) (hn : (K.plug t).ids.Nodup)
    (ha : a.top = t.id) : (a.site s).toOption = K.site? t.id := by
  rw [← enclosingWithin_plug h hf hn (Nat.le_of_lt (length_ctx_le h hn))]
  unfold Access.site enclosingStatement?
  rw [ha]
  cases s.enclosingWithin s.size t.id with
  | none => rfl
  | some r =>
    by_cases hm : (s.kind? r.2).any Kind.isModule
    · simp only [hm, if_true, Option.bind_some]
      rfl
    · simp only [hm, Option.bind_some]
      rfl

/-! ## Links upwards -/

theorem attachedWithin_plug {fuel : Nat} (h : s.Holds none (K.plug t)) (hf : (K.plug t).Fits)
    (hm : (K.plug t).label = .module) (hfuel : K.length < fuel) : s.attachedWithin fuel t.id = true := by
  obtain ⟨fuel, rfl⟩ : ∃ n, fuel = n + 1 := ⟨fuel - 1, by omega⟩
  induction K generalizing t fuel with
  | nil =>
    rw [Ctx.plug_nil] at h hf hm
    rw [attachedWithin, h.top]
    exact hf.isModule_kind.2 hm
  | cons f C ih =>
    have hlists : s.lists f.id t.id = true := by
      have hch := (Holds.inside (C := C) h).children (Ctx.fits_of_plug (C := C) hf)
      rw [Frame.id_plug] at hch
      simp [Store.lists, hch]
    obtain ⟨fuel, rfl⟩ : ∃ n, fuel = n + 1 := ⟨fuel - 1, by simp at hfuel; omega⟩
    rw [attachedWithin, (Holds.inside h).top]
    simp only [Tree.root_parent, Ctx.parent_cons, hlists, Bool.true_and]
    rw [← Frame.id_plug f [t]]
    exact ih h hf hm fuel (by simp at hfuel; omega)

/-- Every node of a module's tree is attached. -/
theorem isAttached_of_mem {T : Tree} (h : s.Holds none T) (hf : T.Fits) (hn : T.ids.Nodup) (hm : T.label = .module)
    (hi : i ∈ T.ids) : s.isAttached i = true := by
  obtain ⟨K, t, rfl, rfl⟩ := Tree.exists_place hi
  exact attachedWithin_plug h hf hm (length_ctx_le h hn)

theorem isAttached_of_notMem (hi : i ∉ s.ids) : s.isAttached i = false := by
  unfold isAttached
  cases s.size with
  | zero => rfl
  | succ fuel => rw [attachedWithin, find?_eq_none_iff.2 hi]

/-- A node that its parent subscripts is in the place for that. -/
theorem exists_link_of_isSubscripted (h : s.Holds none (K.plug t)) (hf : (K.plug t).Fits)
    (hn : (K.plug t).ids.Nodup) (hs : s.isSubscripted t.id = true) : ∃ (l : Link) (C : Ctx), K = l.frame :: C := by
  unfold isSubscripted at hs
  rw [(Holds.inside h).parent?, decide_eq_true_eq] at hs
  cases K with
  | nil => simp at hs
  | cons f C =>
    have hin := Holds.inside (C := C) h
    have hfit := Ctx.fits_of_plug (C := C) hf
    rw [Ctx.parent_cons, Option.bind_some, ← Frame.id_plug f [t]] at hs
    rcases hfit.subscript_cases with ⟨i, ty, v, k, hv⟩ | hl
    · have hsub : s.subscripted? (f.plug [t]).id = some v.id := by
        rw [hv] at hin ⊢
        exact hin.subscripted?_subscript
      have hvt : v.id = t.id := by
        rw [hsub] at hs
        exact Option.some.inj hs
      obtain ⟨rfl, -⟩ := Frame.plug_inj (f := f) (g := (Link.mk i ty k).frame) (a := t) (b := v) (i := t.id) hv
        ((Ctx.nodup_plug C _).1 hn).2.1 t.id_mem_ids (hvt ▸ v.id_mem_ids)
      exact ⟨_, C, rfl⟩
    · rw [hin.subscripted?_of_label hfit hl] at hs
      cases hs

end Store

/-! ## Insertion at a site -/

namespace Edit

variable {s : Store} {F : Forest} {H : List Node} {G : Outside} {p : Option NodeId} {x u : Tree} {K : Ctx}
  {i : NodeId} {σ : Site}

/-- A statement goes to the site of a place. What is in the place may have been replaced since the site was looked
up, but not the statement itself. -/
theorem insertBefore_site (h : s.Keeps ((none, K.plug x) :: (p, u) :: F) H G) {stmt : NodeId} (hstmt : u.id = stmt)
    (hσ : K.site? i = some σ) (hi : i = x.id ∨ i ∉ (K.plug x).ids) :
    Ends (insertBefore stmt σ.stmt σ.block) s (fun _ s' => K.site? x.id = some σ ∧
      s'.Keeps ((none, (K.emit [u]).plug x) :: F) H G ∧ s'.replacements = s.replacements)
      (Refusal s fun e => e = .anchorNotFound σ.stmt σ.block ∧ K.site? x.id ≠ some σ) := by
  subst hstmt
  have hnd := h.tree_nodup (p := none) List.mem_cons_self
  refine (insertBefore_spec h rfl σ.stmt (Ctx.hasBlock_of_site? hσ)).mono ?_
    fun _ _ he => ⟨he.1, he.2.1, fun hx => ?_⟩
  rotate_left
  · obtain ⟨I, b, O, rfl, hb, -, hid, hstmt, -⟩ := Ctx.site?_split hx
    exact he.2.2 ⟨b, O, I.plug x, Ctx.plug_append _ _ _, hid, hstmt x rfl, hb⟩
  obtain ⟨I, b, O, rfl, hb, -, hid, hstmt, hemit⟩ := Ctx.site?_split hσ
  rintro _ s' ⟨f, C, t, hT, hf, ht, hp, hk, hr⟩
  rw [Ctx.plug_append, Ctx.plug_cons] at hT hnd
  rw [Ctx.plug_cons] at hT
  obtain ⟨rfl, hfb⟩ := Ctx.plug_inj hT hnd (by simp [hf, hid])
  have hndb := ((Ctx.nodup_plug O _).1 hnd).2.1
  -- the statement is still the one that the place is in
  have hsame : t.id = (Ctx.plug I x).id ∧ Ctx.site? (I ++ b :: O) x.id = some σ := by
    cases I with
    | nil =>
      have hstmt : σ.stmt = i := (hstmt (.leaf i none .pass) rfl).symm
      rcases hi with rfl | hi
      · exact ⟨by rw [ht, hstmt]; rfl, hσ⟩
      · refine absurd ?_ hi
        have : t.id ∈ (b.plug [Ctx.plug [] x]).ids := by
          rw [hfb, Tree.ids_eq, Frame.kids_plug]
          exact List.mem_cons_of_mem _ (List.mem_flatMap.2 ⟨t, by simp, t.id_mem_ids⟩)
        rw [← hstmt, ← ht]
        exact (Ctx.mem_ids_plug O _ _).2 (.inr this)
    | cons g I =>
      have hg : ∀ y : Tree, (Ctx.plug (g :: I) y).id = σ.stmt := by
        intro y
        rw [← hstmt (.leaf i none .pass) rfl]
        exact Ctx.id_plug_cons
      refine ⟨by rw [ht, hg], ?_⟩
      by_cases hgp : g.part = .heads
      · rw [List.cons_append, Ctx.site?_heads hgp] at hσ ⊢
        exact hσ
      · have := hemit [x]
        rw [List.cons_append, Ctx.emit_list hgp] at this
        injection this with hg1 hg2
        have hleft := congrArg (fun f => f.left.length) hg1
        simp [Frame.push] at hleft
  obtain ⟨rfl, rfl⟩ := Frame.plug_inj (i := t.id) hfb hndb (hsame.1 ▸ Tree.id_mem_ids _) t.id_mem_ids
  refine ⟨hsame.2, ?_, hr⟩
  rw [hemit, Ctx.plug_append]
  exact hk

/-- A statement goes in front of what is in a place, if that is a statement of the block. -/
theorem insertBefore_self (h : s.Keeps ((none, K.plug x) :: (p, u) :: F) H G) {stmt anchor block : NodeId}
    (hstmt : u.id = stmt) (hx : x.id = anchor) (hblock : (K.plug x).HasBlock block) :
    Ends (insertBefore stmt anchor block) s (fun _ s' => (∃ b O, K = b :: O ∧ b.part ≠ .heads ∧ b.id = block) ∧
      s'.Keeps ((none, (K.emit [u]).plug x) :: F) H G ∧ s'.replacements = s.replacements)
      (Refusal s fun e => e = .anchorNotFound anchor block ∧ ¬ ∃ b O, K = b :: O ∧ b.part ≠ .heads ∧
        b.id = block) := by
  subst hstmt hx
  refine (insertBefore_spec h rfl x.id hblock).mono ?_ fun _ _ he => ⟨he.1, he.2.1, ?_⟩
  rotate_left
  · rintro ⟨b, O, rfl, hb, hid⟩
    exact he.2.2 ⟨b, O, x, rfl, hid, rfl, hb⟩
  rintro _ s' ⟨f, C, t, hT, hf, ht, hp, hk, hr⟩
  obtain ⟨rfl, rfl⟩ := Ctx.plug_inj hT (h.tree_nodup (p := none) List.mem_cons_self) ht.symm
  refine ⟨⟨f, C, rfl, hp, hf⟩, ?_, hr⟩
  rw [Ctx.emit_list hp]
  exact hk

end Edit

end ContractTree
