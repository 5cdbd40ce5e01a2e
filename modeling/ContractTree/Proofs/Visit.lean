import ContractTree.Lowering.Basic
import ContractTree.Proofs.Declare

/-!
What the pass does at one node. A node is left alone, or it is rewritten: `Rewritten` says by what, and with which
statements in front. The visit to a module makes the catalog anew, and the visit to a declaration gives it the type
of its slot. `Lowering.Visited` says what a visit may leave, and `Lowering.Stuck` why it may fail
(`Lowering.dispatch_spec`); of the stores on the way, `Lowering.dispatch_course` says that they keep the tree of
the module, under every guard.
-/

namespace ContractTree

open Lowering (Progress Stats)

/-- What may come in the place of a node, with statements in front. -/
inductive Rewritten (c : Catalog) (ν : NodeId) : Tree → List Tree → Tree → Prop where
  | read {t : Tree} {v : StorageVar} {es : List Tree} (i temp : NodeId) (ty : Option Ty)
      (ht : t.access? c = some v) (h : Hoisted c ν [t] es [tempRef i temp ty]) :
      Rewritten c ν t es (tempRef i temp ty)
  | store {t t' : Tree} {es : List Tree} (h : Stored c ν t es t') : Rewritten c ν t es t'
  | combine {t t' : Tree} {es : List Tree} (h : Combined c ν t es t') : Rewritten c ν t es t'

/-- What is known of a tree that the pass leaves alone: it is no access, it is too short for one only if a
subscript goes on with it, it assigns to no slot, and it declares none that is still to be made. -/
structure Left (c : Catalog) (K : Ctx) (t : Tree) : Prop where
  access : t.access? c = none
  short : t.Short c → ∃ (l : Link) (C : Ctx), K = l.frame :: C
  target : (t.label = .assign ∨ ∃ op, t.label = .augAssign op) → ∀ target ∈ t.heads.head?, target.reach c = none
  settled : (∃ a b d, t.label = .variableDecl a b d) → t.Settled c

theorem Left.of_label {c : Catalog} {K : Ctx} {t : Tree} (hm : ∀ attr, t.label ≠ .member attr)
    (hs : t.label ≠ .subscript) (ht : (t.label = .assign ∨ ∃ op, t.label = .augAssign op) →
      ∀ target ∈ t.heads.head?, target.reach c = none)
    (hset : (∃ a b d, t.label = .variableDecl a b d) → t.Settled c) : Left c K t := by
  have hr : t.reach c = none := by
    rw [Tree.reach, Tree.base_of_label hs, Tree.receiver?_of_label hm]
  refine ⟨?_, ?_, ht, hset⟩
  · rw [Tree.access?, hr]
    rfl
  · rintro ⟨v, hv, -⟩
    rw [hr] at hv
    cases hv

namespace Lowering

variable {w : Workspace Progress} {c : Catalog} {g : Guard c} {st : Stats} {G : Outside} {m : NodeId} {K : Ctx}
  {t T : Tree}

/-- What a visit to `t`, in the place `K` of the module's tree, may leave. -/
inductive Visited (c : Catalog) (st : Stats) (G : Outside) (K : Ctx) (t : Tree)
    (w w' : Workspace Progress) : Prop where
  | module (hl : t.label = .module) (hs : w'.store = w.store) (ho : w'.own = ⟨Tree.catalogOf t.body, st⟩)
      (hd : ∀ d ∈ t.body, d.Declarable)
  | left (hw : w' = w) (hl : t.label ≠ .module) (h : Left c K t)
  | declared {v : StorageVar} {gs : List Tree} (hl : ∃ a b d, t.label = .variableDecl a b d)
      (hv : c.declaredAt? t.id = some v) (hty : t.ty.any Ty.isSlot = false) (hgs : Getters v gs)
      (hfree : t.GetterFree c (K.plug (t.declareSlot v)).body)
      (h : Has w' c (st + { getters := gs.length }) [(none, (K.plug (t.declareSlot v)).addDecls gs)] [] G)
  | rewritten {es : List Tree} {t' : Tree} {σ : Site} (ht : Rewritten c G.next t es t')
      (hσ : K.site? t'.id = some σ) (h : Has w' c (st + t.charge c) [(none, (K.emit es).plug t')] [] G)
      (hgone : t.id ∉ w'.store.ids) (hrep : w'.store.replacementOf? t.id = some t'.id)

/-- Why a visit to `t`, in the place `K` of the module's tree, may fail with `e`. -/
inductive Stuck (c : Catalog) (K : Ctx) (t : Tree) (e : PassError) : Prop where
  | module (hl : t.label = .module) (hd : ¬ ∀ d ∈ t.body, d.Declarable) (he : e.Undeclared)
  | declaration (hl : ∃ a b d, t.label = .variableDecl a b d) (hset : ¬ t.Settled c)
      (he : (K.plug t).label = .module → e.Fault True (∀ v, t.GetterFree c (K.plug (t.declareSlot v)).body))
  | access (hl : t.label ≠ .module) (hc : ¬ t.Clean c)
      (he : e.Fault (t.Proper ∧ t.label.isStatement = K.inList) (Walkable c K.sited [t]))

theorem site?_of_inBlock (h : K.InBlock) (i : NodeId) : ∃ σ, K.site? i = some σ := by
  obtain ⟨b, O, rfl, hb, hm⟩ := h
  exact ⟨⟨i, b.id⟩, by rw [Ctx.site?, if_neg hb, if_neg hm]⟩

theorem stuck_of_unassignable {e : PassError} (hf : t.Fits)
    (hl : t.label = .assign ∨ ∃ op, t.label = .augAssign op) (h : Lower.Unassignable c K t e) : Stuck c K t e := by
  have hstmt : t.label.isStatement = true := by rcases hl with hl | ⟨op, hl⟩ <;> rw [hl] <;> rfl
  refine .access (by rcases hl with hl | ⟨op, hl⟩ <;> simp [hl]) h.1
    (h.2.mono (fun hp => ⟨Ctx.inList_iff.1 (hp.2 ▸ hstmt), fun k hk => ?_⟩) id)
  have hkid : k ∈ t.kids := by simp [Tree.kids, hk]
  exact Tree.Proper.flat (hp.1.kid hkid) (hf.kid hkid) (hp.1.top.1 k hk)

/-- **One visit**, the stores on its way, and the jobs that do it. -/
theorem dispatch_track (h : Has w c st [(none, K.plug t)] [] G) (hI : w.store.Tends g m G)
    (hm : (K.plug t).id = m) :
    Track g m G (Lower.edit (Edit.node t.id) >>= fun n => Unbounded.visit n.tag t.id m) (visitor.dispatch t.id m) w
      (fun _ w' => Visited c st G K t w w') (Stuck c K t) := by
  have hmain := h.holds
  have hfit := h.fits
  have hnd := h.nodup
  have hft : t.Fits := Ctx.fits_of_plug hfit
  have hin : w.store.Holds K.parent t := Store.Holds.inside hmain
  have hlk : t.kind.label = t.label := hft.label_kind
  have hread : ((∃ attr, t.label = .member attr) ∨ t.label = .subscript) →
      Track g m G (Unbounded.lowerReadAt t.id) (Lower.lowerReadAt t.id) w (fun _ w' => Visited c st G K t w w')
        (Stuck c K t) := by
    intro hl
    have hmod : t.label ≠ .module := by rcases hl with ⟨attr, hl⟩ | hl <;> simp [hl]
    refine (Lower.lowerReadAt_track h hI hm).mono ?_ fun e he => .access hmod he.1 (he.2.mono ?_ id)
    · rintro _ w' (⟨hw, hacc, hsub⟩ | ⟨v, es, i, temp, ty, σ, hv, hes, hσ, h', hgone, hrep⟩)
      · refine .left hw hmod ⟨hacc,
          fun hs => Store.exists_link_of_isSubscripted hmain hfit hnd (hsub hs), ?_, ?_⟩
        · rcases hl with ⟨attr, hl⟩ | hl <;> simp [hl]
        · rcases hl with ⟨attr, hl⟩ | hl <;> simp [hl]
      · exact .rewritten (.read i temp ty hv hes) hσ h' hgone hrep
    · rintro ⟨hp, htake⟩
      have hexpr : t.label.isStatement = false := by
        rcases hl with ⟨attr, hl⟩ | hl <;> simp [hl, Label.isStatement]
      have hhead : K.Headed := by
        by_contra hno
        rw [htake, Ctx.inList_iff.2 hno] at hexpr
        cases hexpr
      exact ⟨hhead, hp.flat hft hexpr⟩
  refine Track.node (f := fun n => visitor.visit n.tag t.id m) hin.top ?_
  simp only [Node.tag, Tree.root_kind]
  cases hk : t.kind with
  | module body =>
    have hl : t.label = .module := by rw [← hlk, hk]; rfl
    refine .of_course (.of_ends hI ((Lower.collectCatalog_spec hin hft).mono ?_ fun e w' he =>
      ⟨he.1, .module hl (he.2 hl).1 (he.2 hl).2⟩))
    rintro _ w' ⟨hs, ho, hd⟩
    exact ⟨hs, .module hl hs (by rw [ho, h.own]) hd⟩
  | variableDecl target value a b d =>
    have hl : t.label = .variableDecl a b d := by rw [← hlk, hk]; rfl
    refine .of_course ((Lower.lowerDeclaration_course hl h hI hm).mono ?_
      fun e he => .declaration ⟨a, b, d, hl⟩ he.1 he.2)
    rintro _ w' (⟨hw, hset⟩ | ⟨v, gs, hv, hty, hgs, hfree, h'⟩)
    · exact .left hw (by simp [hl]) (.of_label (by simp [hl]) (by simp [hl]) (by simp [hl]) fun _ => hset)
    · exact .declared ⟨a, b, d, hl⟩ hv hty hgs hfree h'
  | assign target value =>
    have hl : t.label = .assign := by rw [← hlk, hk]; rfl
    refine (Lower.lowerAssign_track hl h hI hm).mono ?_ fun e he => stuck_of_unassignable hft (.inl hl) he
    rintro _ w' (⟨hw, ht⟩ | ⟨es, t', hes, hblock, h', hgone, hrep⟩)
    · exact .left hw (by simp [hl]) (.of_label (by simp [hl]) (by simp [hl]) (fun _ => ht) (by simp [hl]))
    · obtain ⟨σ, hσ⟩ := site?_of_inBlock hblock t'.id
      exact .rewritten (.store hes) hσ h' hgone hrep
  | augAssign target op value =>
    have hl : t.label = .augAssign op := by rw [← hlk, hk]; rfl
    refine (Lower.lowerAugAssign_track hl h hI hm).mono ?_ fun e he => stuck_of_unassignable hft (.inr ⟨op, hl⟩) he
    rintro _ w' (⟨hw, ht⟩ | ⟨es, t', hes, hblock, h', hgone, hrep⟩)
    · exact .left hw (by simp [hl]) (.of_label (by simp [hl]) (by simp [hl]) (fun _ => ht) (by simp [hl]))
    · obtain ⟨σ, hσ⟩ := site?_of_inBlock hblock t'.id
      exact .rewritten (.combine hes) hσ h' hgone hrep
  | member value attr => exact hread (.inl ⟨attr, by rw [← hlk, hk]; rfl⟩)
  | subscript value slice => exact hread (.inr (by rw [← hlk, hk]; rfl))
  | _ =>
    rw [hk] at hlk
    exact .pure hI (.left rfl (by simp [← hlk, Kind.label]) (.of_label (by simp [← hlk, Kind.label])
      (by simp [← hlk, Kind.label]) (by simp [← hlk, Kind.label]) (by simp [← hlk, Kind.label])))

theorem dispatch_course (h : Has w c st [(none, K.plug t)] [] G) (hI : w.store.Tends g m G)
    (hm : (K.plug t).id = m) :
    Course (Store.Tends g m G) (visitor.dispatch t.id m) w (fun _ w' => Visited c st G K t w w') (Stuck c K t) :=
  (dispatch_track h hI hm).toCourse

/-- What one visit leaves. -/
theorem dispatch_spec (h : Has w c st [(none, K.plug t)] [] G) :
    Ends (visitor.dispatch t.id (K.plug t).id) w (fun _ w' => Visited c st G K t w w')
      (Stopped (K.plug t).id (Stuck c K t)) :=
  (dispatch_course (g := Guard.idle c) h h.keeps.tends_idle rfl).stopped fun _ hs => hs.good

/-! ## The start of the pass -/

/-- The store that a tree without parent stands in, with all else set apart. -/
theorem has_of_holds (hs : w.store.Sound) (hf : T.Fits) (hn : T.ids.Nodup) (hT : w.store.Holds none T) :
    Has w w.own.catalog w.own.stats [(none, T)] [] (w.store.outside T) where
  own := rfl
  keeps := {
    sound := hs
    fits := by simpa using hf
    nodup := by simpa using hn
    holds := by simpa using hT
    husks := by simp
    adrift := by simp
    rest := by
      intro i hi
      by_cases hiT : i ∈ T.ids
      · exact .inl (by simpa using hiT)
      · exact .inr (by simpa using ⟨hi, hiT⟩)
    apart := by
      intro i hi
      rw [Store.mem_outside] at hi
      exact ⟨hs.below i hi.1, by simpa using hi.2⟩
    next_le := Nat.le_refl _ }

end Lowering

end ContractTree
