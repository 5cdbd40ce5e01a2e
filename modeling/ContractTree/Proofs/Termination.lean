import ContractTree.Proofs.Accounting
import ContractTree.Proofs.Budget
import ContractTree.Proofs.Loops
import ContractTree.Proofs.Tour
import Mathlib.Tactic.Linarith

/-!
The pass comes to an end, whatever kinds of nodes stand in whatever places. The walk pays for each of its steps
with a node of the tree, and a declaration pays for the getter that is put at the end of the module (`Tree.load`),
so that the walk does not meet its bound (`Lowering.run_spends`). Each access that a visit lowers takes one member
away from the tree of the module (`Lowering.Visited.tally`). So the loops of the pass end without their bounds, and
those that look at the store on the way end too (`Lowering.run_terminates`).
-/

namespace ContractTree

open Lowering (Progress Stats visitor)
open Unbounded (Endless)

/-! ## What the walk has to do -/

namespace Tree

variable {b : Nat} {t : Tree} {ts us : List Tree} {v : StorageVar}

/-- What the walk over trees has to do at most, when a getter has no more than `b` nodes. -/
def load (b : Nat) (ts : List Tree) : Nat := (ts.flatMap ids).length + b * tallyAll .variableDecl ts

@[simp] theorem load_nil : load b [] = 0 := by simp [load]

theorem load_append : load b (ts ++ us) = load b ts + load b us := by
  simp only [load, List.flatMap_append, List.length_append, tallyAll_append, Nat.mul_add]
  omega

theorem load_cons : load b (t :: ts) = load b [t] + load b ts := by
  rw [← load_append, List.singleton_append]

/-- A node has its children to do, and itself; a declaration has a getter to do besides. -/
theorem load_singleton (b : Nat) (t : Tree) :
    load b [t] = load b t.kids + 1 + b * (t.label.tag == .variableDecl).toNat := by
  simp only [load, List.flatMap_cons, List.flatMap_nil, List.append_nil, tallyAll_cons, tallyAll_nil, Nat.add_zero,
    t.ids_eq, t.tally_eq, List.length_cons, Nat.mul_add]
  omega

theorem load_declareSlot : load b [t.declareSlot v] = load b [t] := by
  simp [load, tally_declareSlot]

theorem tallyAll_perm {τ : Tag} (h : ts.Perm us) : tallyAll τ ts = tallyAll τ us := by
  induction h with
  | nil => rfl
  | cons _ _ ih => simp [ih]
  | swap => simp only [tallyAll_cons]; omega
  | trans _ _ ih₁ ih₂ => exact ih₁.trans ih₂

theorem load_perm (h : ts.Perm us) : load b ts = load b us := by
  rw [load, load, tallyAll_perm h, (h.flatMap_right ids).length_eq]

theorem tally_addDecls {τ : Tag} {gs : List Tree} : (t.addDecls gs).tally τ = t.tally τ + tallyAll τ gs := by
  obtain ⟨i, ty, l, hs, bs, os⟩ := t
  simp only [addDecls, tally_eq τ (.node ..), kids_node, label_node, tallyAll_append]
  omega

end Tree

theorem Getters.load_le {v : StorageVar} {gs : List Tree} {b : Nat} (h : Getters v gs) (hb : 2 * v.depth + 6 ≤ b) :
    Tree.load b gs ≤ b := by
  cases h with
  | none => simp
  | @one g _ hg =>
    have htally : g.tally .variableDecl = 0 := hg.tally rfl
    simpa [Tree.load, htally, hg.length_ids] using hb

/-- At most one getter is made at a time. -/
theorem Getters.length_le {v : StorageVar} {gs : List Tree} (h : Getters v gs) : gs.length ≤ 1 := by
  cases h <;> simp

theorem Getters.tally {v : StorageVar} {gs : List Tree} {τ : Tag} (h : Getters v gs) (hτ : τ.counted = true) :
    Tree.tallyAll τ gs = τ.made { getters := gs.length } := by
  cases h with
  | none => simp
  | one _ hg => simpa using hg.tally hτ

namespace Ctx

/-- What is in a place counts beside what is around it. -/
theorem tally_plug (τ : Tag) (K : Ctx) (x y : Tree) :
    (K.plug x).tally τ + y.tally τ = (K.plug y).tally τ + x.tally τ := by
  induction K generalizing x y with
  | nil => exact Nat.add_comm _ _
  | cons f K ih =>
    have hK := ih (f.plug [x]) (f.plug [y])
    simp only [Tree.tally_eq τ (f.plug _), Frame.kids_plug, Frame.label_plug, Tree.tallyAll_append,
      Tree.tallyAll_cons, Tree.tallyAll_nil] at hK
    rw [plug_cons, plug_cons]
    omega

/-- What is put in front of a place that has a site counts. -/
theorem tally_emit {K : Ctx} {τ : Tag} {x : Tree} {es : List Tree} {i : NodeId} {σ : Site}
    (h : K.site? i = some σ) : ((K.emit es).plug x).tally τ = (K.plug x).tally τ + Tree.tallyAll τ es := by
  induction K generalizing x i with
  | nil => cases h
  | cons f K ih =>
    by_cases hf : f.part = .heads
    · rw [emit_heads hf, plug_cons, plug_cons]
      exact ih (site?_heads hf ▸ h)
    · have hK := tally_plug τ K (f.plug (es ++ [x])) (f.plug [x])
      simp only [Tree.tally_eq τ (f.plug _), Frame.kids_plug, Frame.label_plug, Tree.tallyAll_append,
        Tree.tallyAll_cons, Tree.tallyAll_nil] at hK
      rw [emit_list hf, plug_cons, plug_cons, Frame.plug_push]
      omega

/-- What is put at the end of the outermost list is behind a place in that list, and behind no other. -/
theorem exists_up_perm (f : Frame) (K : Ctx) (es gs : List Tree) : ∃ (f' : Frame) (es' : List Tree),
    (emit (f :: K) es).extend gs = f' :: (K.emit es').extend gs ∧ f'.id = f.id ∧
      (K = [] ∧ f'.after.Perm (f.after ++ gs) ∨ K ≠ [] ∧ f'.after = f.after) := by
  by_cases hK : K = []
  · subst hK
    obtain ⟨f₁, hf₁, hid, hafter⟩ : ∃ f₁, emit [f] es = [f₁] ∧ f₁.id = f.id ∧ f₁.after = f.after := by
      by_cases hf : f.part = .heads
      · exact ⟨f, by rw [emit_heads hf]; rfl, rfl, rfl⟩
      · exact ⟨f.push es, emit_list hf, rfl, rfl⟩
    refine ⟨{ f₁ with right := f₁.right ++ gs }, [], by rw [hf₁]; rfl, hid, .inl ⟨rfl, ?_⟩⟩
    rw [← hafter]
    unfold Frame.after
    cases f₁.part with
    | heads =>
      simp only [List.append_assoc]
      exact (List.perm_append_comm.trans (by rw [List.append_assoc])).append_left _
    | body =>
      simp only [List.append_assoc]
      exact List.perm_append_comm.append_left _
    | orelse => exact .refl _
  · obtain ⟨f', es', heq, hid, hafter⟩ := exists_up hK f es gs
    exact ⟨f', es', heq, hid, .inr ⟨hK, hafter⟩⟩

end Ctx

/-! ## Visits -/

namespace Lowering

variable {w w' w'' : Workspace Progress} {c : Catalog} {ν : NodeId} {st : Stats} {G : Outside} {K : Ctx} {t : Tree}
  {m : NodeId} {e : PassError} {b : Nat} {I : Workspace Progress → Prop}

/-- No visit fails because a loop has met its bound. -/
theorem Stuck.not_endless (h : Stuck c K t e) (hl : (K.plug t).label = .module) : ¬ Endless e := by
  have hfault : ∀ {proper able : Prop}, e.Fault proper able → ¬ Endless e := by
    rintro _ _ (_ | _ | _) ⟨i, hi⟩ <;> cases hi
  cases h with
  | module _ _ he =>
    rintro ⟨i, rfl⟩
    rcases he with ⟨cause, he⟩ | ⟨decl, he⟩ <;> cases he
  | declaration _ _ he => exact hfault (he hl)
  | access _ _ he => exact hfault he

/-- A visit makes and takes away nodes as its statistics say. -/
theorem Visited.tally {τ : Tag} (h : Visited c st G K t w w') (hw : Has w c st [(none, K.plug t)] [] G)
    (hτ : τ.counted = true) : ∃ c' T, T.id = (K.plug t).id ∧ Has w' c' w'.own.stats [(none, T)] [] G ∧
      T.tally τ + τ.taken w'.own.stats + τ.made st = (K.plug t).tally τ + τ.taken st + τ.made w'.own.stats := by
  cases h with
  | module _ hs ho => exact ⟨_, K.plug t, rfl, ⟨by rw [ho], hs ▸ hw.keeps⟩, by rw [ho]⟩
  | left hw' => exact ⟨c, K.plug t, rfl, by rw [hw', hw.own]; exact hw, by rw [hw', hw.own]⟩
  | @declared v gs _ _ _ hgs _ h' =>
    refine ⟨c, _, ?_, by rw [h'.own]; exact h', ?_⟩
    · rw [Tree.id_addDecls, Ctx.id_plug_congr Tree.id_declareSlot]
    · have hplace := Ctx.tally_plug τ K (t.declareSlot v) t
      have htaken : τ.taken { getters := gs.length } = 0 := by cases τ <;> rfl
      rw [Tree.tally_declareSlot] at hplace
      rw [h'.own, Tree.tally_addDecls, hgs.tally hτ, Tag.taken_add, Tag.made_add, htaken]
      omega
  | @rewritten es t' σ ht hσ h' =>
    refine ⟨c, _, ?_, by rw [h'.own]; exact h', ?_⟩
    · rw [Ctx.id_plug_emit]
      exact Ctx.id_plug_of_site hσ
    · have hplace := Ctx.tally_plug τ K t' t
      have htally := ht.tally hτ (Ctx.fits_of_plug hw.fits)
      rw [h'.own, Ctx.tally_emit hσ, Tag.taken_add, Tag.made_add]
      omega

/-- What the visits keep bounds the getters that they make. -/
structure Bounds (G : Outside) (m : NodeId) (b : Nat) (I : Workspace Progress → Prop) : Prop where
  kept : Kept G m I fun _ => True
  depth : ∀ w, I w → ∀ v ∈ w.own.catalog, 2 * v.depth + 6 ≤ b

/-- Of the trees `ts` that the walk had to do in `w`, the trees `us` are left in `w'`, and it has taken `k` steps.
Each getter is paid for with a declaration. -/
structure Spends (b k : Nat) (w w' : Workspace Progress) (ts us : List Tree) : Prop where
  load : Tree.load b us + k ≤ Tree.load b ts
  getters : w'.own.stats.getters + Tree.tallyAll .variableDecl us ≤ w.own.stats.getters +
    Tree.tallyAll .variableDecl ts

theorem Spends.trans {k : Nat} {ts us vs : List Tree} (h : Spends b 0 w w' ts us) (h' : Spends b k w' w'' us vs) :
    Spends b k w w'' ts vs := ⟨h'.load.trans h.load, h'.getters.trans h.getters⟩

/-- Some of what is left is done. -/
theorem Spends.trans_append {k : Nat} {ts us vs gs : List Tree} (h : Spends b k w w' ts (gs ++ us))
    (h' : Spends b 0 w' w'' us vs) : Spends b k w w'' ts (gs ++ vs) := by
  obtain ⟨hload, hgetters⟩ := h
  obtain ⟨hload', hgetters'⟩ := h'
  rw [Tree.load_append] at hload
  rw [Tree.tallyAll_append] at hgetters
  exact ⟨by rw [Tree.load_append]; omega, by rw [Tree.tallyAll_append]; omega⟩

/-- A node that stays leaves its children. -/
theorem spends_kids (hw : w'.own.stats = w.own.stats) : Spends b 1 w w' [t] t.kids := by
  refine ⟨by rw [t.load_singleton b]; omega, ?_⟩
  rw [hw, Tree.tallyAll_cons, Tree.tallyAll_nil, Nat.add_zero, t.tally_eq]
  omega

/-- The node `t` has been visited and is still in its place, perhaps with another type and with a getter at the end
of the module. -/
def Stayed (G : Outside) (m : NodeId) (b : Nat) (K : Ctx) (t : Tree) (w w' : Workspace Progress) : Prop :=
  ∃ gs t', t'.id = t.id ∧ Stands G m w' ((K.extend gs).plug t') ∧ Spends b 1 w w' [t] (gs ++ t'.kids)

/-- The node `t` has been visited and rewritten. -/
def Replaced (G : Outside) (m : NodeId) (b : Nat) (K : Ctx) (t : Tree) (w w' : Workspace Progress) : Prop :=
  ∃ es t', Rewritten w.own.catalog G.next t es t' ∧ w'.own.catalog = w.own.catalog ∧
    Stands G m w' ((K.emit es).plug t') ∧
    t.id ∉ w'.store.ids ∧ w'.store.replacementOf? t.id = some t'.id ∧ Spends b 0 w w' [t] [t']

/-- What comes in the place of a node has no more to do. -/
theorem spends_rewritten {es : List Tree} {t' : Tree} (h : Rewritten c ν t es t') (hf : t.Fits)
    (hw : w'.own.stats = w.own.stats + t.charge c) : Spends b 0 w w' [t] [t'] := by
  have hids := h.length_ids_le hf
  have htally := h.tally (τ := .variableDecl) rfl hf
  simp only [Tag.taken, Tag.made, Nat.add_zero] at htally
  have hle : t'.tally .variableDecl ≤ t.tally .variableDecl := by omega
  have hmul := Nat.mul_le_mul_left b hle
  refine ⟨?_, ?_⟩
  · simp only [Tree.load, List.flatMap_cons, List.flatMap_nil, List.append_nil, Tree.tallyAll_cons,
      Tree.tallyAll_nil, Nat.add_zero]
    omega
  · simpa [hw] using hle

/-- A declaration pays for its getter. -/
theorem spends_declared {v : StorageVar} {gs : List Tree} (hl : t.label.tag = .variableDecl) (hgs : Getters v gs)
    (hb : 2 * v.depth + 6 ≤ b) (hw : w'.own.stats = w.own.stats + { getters := gs.length }) :
    Spends b 1 w w' [t] (gs ++ (t.declareSlot v).kids) := by
  have hload := (t.declareSlot v).load_singleton b
  have htally := (t.declareSlot v).tally_eq .variableDecl
  have hnone : Tree.tallyAll .variableDecl gs = 0 := hgs.tally rfl
  have hone := hgs.length_le
  have hgetters := hgs.load_le hb
  rw [Tree.load_declareSlot, Tree.label_declareSlot, hl, beq_self_eq_true, Bool.toNat_true, Nat.mul_one] at hload
  rw [Tree.tally_declareSlot, Tree.label_declareSlot, hl, beq_self_eq_true, Bool.toNat_true] at htally
  refine ⟨by rw [Tree.load_append]; omega, ?_⟩
  simp only [hw, Stats.getters_add, Tree.tallyAll_append, Tree.tallyAll_cons, Tree.tallyAll_nil]
  omega

/-- One visit. -/
theorem dispatch_spends (hI : Bounds G m b I) (hst : Stands G m w (K.plug t)) (hw : I w) :
    Ends (visitor.dispatch t.id m) w (fun _ w' => I w' ∧ (Stayed G m b K t w w' ∨ Replaced G m b K t w w'))
      fun e _ => ¬ Endless e := by
  have hin : t.id ∈ (K.plug t).ids := Ctx.id_mem_plug _ _
  have hkept := hI.kept hst hin hw
  obtain ⟨c, st, h⟩ := hst.has
  have hspec := dispatch_spec h
  rw [hst.id] at hspec
  refine (hspec.and hkept).mono ?_ fun e w' he => he.1.2.not_endless hst.label
  rintro _ w' ⟨hv, hw'⟩
  refine ⟨hw', ?_⟩
  cases hv with
  | module _ hs ho =>
    have hstats : w'.own.stats = w.own.stats := by rw [ho, h.own]
    refine .inl ⟨[], t, rfl, ?_, spends_kids hstats⟩
    rw [Ctx.extend_nil]
    exact ⟨hst.id, hst.label, _, _, ho, hs ▸ h.keeps⟩
  | left hw _ _ =>
    subst hw
    exact .inl ⟨[], t, rfl, by rwa [Ctx.extend_nil], spends_kids rfl⟩
  | @declared v gs hl hv _ hgs _ h' =>
    obtain ⟨x, y, z, hl⟩ := hl
    have hK : K ≠ [] := by
      rintro rfl
      have := hst.label
      rw [Ctx.plug_nil, hl] at this
      cases this
    have hlabel : (K.plug (t.declareSlot v)).label = .module := by
      rw [← hst.label]
      cases K with
      | nil => exact absurd rfl hK
      | cons f C => exact Ctx.label_plug_cons
    have hbody := Ctx.bodied_of_plug hK h.fits hst.label
    have hdepth := hI.depth w hw v (h.catalog ▸ List.mem_of_find?_eq_some hv)
    rw [← Ctx.plug_extend hbody] at h'
    refine .inl ⟨gs, t.declareSlot v, Tree.id_declareSlot, ⟨?_, ?_, c, _, h'⟩,
      spends_declared (by rw [hl]; rfl) hgs hdepth (by rw [h'.own, h.own])⟩
    · rw [Ctx.plug_extend hbody, Tree.id_addDecls, Ctx.id_plug_congr Tree.id_declareSlot, hst.id]
    · rw [Ctx.plug_extend hbody, Tree.label_addDecls, hlabel]
  | @rewritten es t' σ ht hσ h' hgone hrep =>
    have hf := Ctx.fits_of_plug h.fits
    refine .inr ⟨es, t', h.catalog.symm ▸ ht, by rw [h'.catalog, h.catalog], ⟨?_, ?_, c, _, h'⟩, hgone, hrep,
      spends_rewritten ht hf (by rw [h'.own, h.own])⟩
    · rw [← hst.id, Ctx.id_plug_emit]
      exact Ctx.id_plug_of_site hσ
    · cases K with
      | nil => cases hσ
      | cons f C => rw [← hst.label, Ctx.label_plug_emit, Ctx.label_plug_cons]

/-- What is in a place of the module's tree is attached. -/
theorem Stands.isAttached_plug (hst : Stands G m w (K.plug t)) : w.store.isAttached t.id = true :=
  hst.isAttached (Ctx.id_mem_plug _ _)

/-- A node is visited, and what replaces it, which stays: two visits are enough. -/
theorem settle_spends (hI : Bounds G m b I) (hst : Stands G m w (K.plug t)) (hw : I w) {fuel : Nat}
    (hfuel : 2 ≤ fuel) : Ends (visitor.settle m fuel t.id) w (fun r w' => I w' ∧ ∃ es gs t', r = some t'.id ∧
      Stands G m w' (((K.emit es).extend gs).plug t') ∧ Spends b 1 w w' [t] (gs ++ t'.kids))
        fun e _ => ¬ Endless e := by
  obtain ⟨fuel, rfl⟩ := Nat.exists_eq_add_of_le' hfuel
  rw [Visitor.settle, ends_bind]
  refine (dispatch_spends hI hst hw).mono ?_ fun _ _ he => he
  rintro _ w₁ ⟨hw₁, ⟨gs, t', hid, hst', hspent⟩ | ⟨es, t', ht, hcat, hst', hgone, hrep, hspent⟩⟩ <;>
    rw [Lower.store_then]
  · rw [if_pos (hid ▸ hst'.isAttached_plug)]
    exact ⟨hw₁, [], gs, t', by rw [hid], by rwa [Ctx.emit_nil], hspent⟩
  · rw [if_neg (by simp [Store.isAttached_of_notMem hgone]), hrep]
    dsimp only
    rw [if_pos hst'.isAttached_plug, Visitor.settle, ends_bind]
    refine (dispatch_spends hI hst' hw₁).mono ?_ fun _ _ he => he
    rintro _ w₂ ⟨hw₂, ⟨gs, t'', hid, hst'', hspent'⟩ | ⟨es', t'', ht', -⟩⟩ <;> rw [Lower.store_then]
    · rw [if_pos (hid ▸ hst''.isAttached_plug)]
      exact ⟨hw₂, es, gs, t'', by rw [hid], hst'', hspent.trans hspent'⟩
    · -- what has replaced a node does not refer to storage
      rw [hcat] at ht'
      exact absurd ht.clean.1 ht'.not_clean

/-! ## The walk -/

/-- The walk over a tree does not meet its bound, given fuel for what it has to do, and adds getters for less than
that. -/
def WalkSpends (G : Outside) (m : NodeId) (b : Nat) (I : Workspace Progress → Prop) (fuel : Nat) : Prop :=
  ∀ {w : Workspace Progress} {K : Ctx} {t : Tree}, Stands G m w (K.plug t) → I w → 2 * Tree.load b [t] + 1 ≤ fuel →
    Ends (visitor.walkNode m fuel t.id) w (fun r w' => I w' ∧ ∃ es gs t', r = some t'.id ∧
      Stands G m w' (((K.emit es).extend gs).plug t') ∧ Spends b 1 w w' [t] gs) fun e _ => ¬ Endless e

/-- The same of the walk over the children of a node from one of them on. -/
def WalkKidsSpends (G : Outside) (m : NodeId) (b : Nat) (I : Workspace Progress → Prop) (fuel : Nat) : Prop :=
  ∀ (w : Workspace Progress) (K : Ctx) (t : Tree) (done rest : List Tree), Stands G m w (K.plug t) → I w →
    t.kids = done ++ rest → 2 * Tree.load b rest + 2 ≤ fuel →
    Ends (visitor.walkChildren m fuel t.id done.length) w (fun r w' => I w' ∧ ∃ es gs t', r = some t'.id ∧
      t'.id = t.id ∧
      Stands G m w' (((K.emit es).extend gs).plug t') ∧ Spends b 0 w w' rest gs) fun e _ => ¬ Endless e

theorem walkSpends_succ {fuel : Nat} (hI : Bounds G m b I) (ih : WalkKidsSpends G m b I fuel) :
    WalkSpends G m b I (fuel + 1) := by
  intro w K t hst hw hfuel
  have hload := t.load_singleton b
  rw [Visitor.walkNode, ends_bind]
  refine (settle_spends hI hst hw (by omega)).mono ?_ fun _ _ he => he
  rintro _ w₁ ⟨hw₁, es, gs, t', rfl, hst', hspent⟩
  have hleft := hspent.load
  rw [Tree.load_append] at hleft
  refine (ih w₁ _ t' [] t'.kids hst' hw₁ rfl (by omega)).mono ?_ fun _ _ he => he
  rintro _ w₂ ⟨hw₂, es', gs', t'', hr, -, hst'', hspent'⟩
  rw [Ctx.emit_extend, Ctx.emit_emit, Ctx.extend_extend] at hst''
  exact ⟨hw₂, es ++ es', gs ++ gs', t'', hr, hst'', hspent.trans_append hspent'⟩

theorem walkKidsSpends_succ {fuel : Nat} (hnode : WalkSpends G m b I fuel) (ih : WalkKidsSpends G m b I fuel) :
    WalkKidsSpends G m b I (fuel + 1) := by
  intro w K t done rest hst hw hkids hfuel
  obtain ⟨c, st, h⟩ := hst.has
  cases rest with
  | nil =>
    have hch := h.holds.inside.children
      (Ctx.fits_of_plug h.fits)
    rw [Visitor.walkChildren, Lower.store_then]
    dsimp only
    have hget : (w.store.children t.id)[done.length]? = none := by
      rw [hch, hkids]
      simp
    rw [hget]
    exact ⟨hw, [], [], t, rfl, rfl, by simpa using hst, ⟨Nat.le_refl _, Nat.le_refl _⟩⟩
  | cons k rest =>
    obtain ⟨f, rfl, rfl, rfl⟩ := Tree.exists_frame_between hkids
    have hload : Tree.load b (k :: f.after) = _ := Tree.load_cons
    rw [Frame.id_plug]
    refine walkChild (K := K) (k := k) h ((hnode (K := f :: K) hst hw (by omega)).mono ?_ fun _ _ he => he)
    rintro _ w₁ ⟨hw₁, es, gs, k', rfl, hst', hspent⟩
    obtain ⟨f', es', heq, hid, hafter⟩ := Ctx.exists_up_perm f K es gs
    rw [heq] at hst'
    obtain ⟨c', st', h'⟩ := hst'.has
    -- in the body of the module itself, the getters have become children that are walked
    obtain ⟨kept, hleft, hkept⟩ : ∃ kept, Spends b 1 w w₁ (k :: f.after) (kept ++ f'.after) ∧
        ∀ es gs', (K.emit es).extend (gs ++ gs') = (K.emit es).extend (kept ++ gs') := by
      have htally : Tree.tallyAll .variableDecl (k :: f.after) = _ := Tree.tallyAll_cons
      obtain ⟨hspent, hgetters⟩ := hspent
      rw [Tree.tallyAll_cons, Tree.tallyAll_nil] at hgetters
      rcases hafter with ⟨rfl, hperm⟩ | ⟨-, hsame⟩
      · refine ⟨[], ⟨?_, ?_⟩, fun _ _ => rfl⟩
        · rw [List.nil_append, Tree.load_perm hperm, Tree.load_append]
          omega
        · rw [List.nil_append, Tree.tallyAll_perm hperm, Tree.tallyAll_append]
          omega
      · refine ⟨gs, ⟨?_, ?_⟩, fun _ _ => rfl⟩
        · rw [hsame, Tree.load_append]
          omega
        · rw [hsame, Tree.tallyAll_append]
          omega
    refine ⟨f', _, k', c', st', rfl, hid, fun x => ?_, h', ?_⟩
    · exact ⟨Ctx.id_plug_cons.trans hst'.id, Ctx.label_plug_cons.trans hst'.label⟩
    · have hfewer := hleft.load
      rw [Tree.load_append] at hfewer
      have hgo := ih w₁ ((K.emit es').extend gs) (f'.plug [k']) (f'.before ++ [k']) f'.after hst' hw₁ (by simp)
        (by omega)
      rw [Frame.id_plug, hid, List.length_append, List.length_singleton] at hgo
      refine hgo.mono ?_ fun _ _ he => he
      rintro _ w₂ ⟨hw₂, es₂, gs₂, t', hr, hid', hst₂, hspent₂⟩
      rw [Ctx.emit_extend, Ctx.emit_emit, Ctx.extend_extend, hkept] at hst₂
      have hall := hleft.trans_append hspent₂
      exact ⟨hw₂, es' ++ es₂, kept ++ gs₂, t', hr, hid', hst₂, Nat.le_of_succ_le hall.load, hall.getters⟩

theorem walk_spends (hI : Bounds G m b I) (fuel : Nat) :
    WalkSpends G m b I fuel ∧ WalkKidsSpends G m b I fuel := by
  induction fuel with
  | zero => exact ⟨fun _ _ h => by omega, fun _ _ _ _ _ _ _ _ h => by omega⟩
  | succ fuel ih => exact ⟨walkSpends_succ hI ih.2, walkKidsSpends_succ ih.1 ih.2⟩

end Lowering

/-- The nodes of a store and the keys of one type count for no more than the store. -/
theorem Store.size_add_breadth_le (s : Store) : s.size + s.breadth ≤ s.weight := by
  unfold size breadth weight
  induction s.nodes with
  | nil => simp
  | cons n ns ih =>
    simp only [List.length_cons, List.map_cons, List.foldr_cons]
    omega

namespace Lowering

variable {w : Workspace Progress} {T : Tree} {m : NodeId}

/-- **The bound of the walk is large enough** for a tree with any number of modules in it, and for a getter for
every declaration. -/
theorem load_lt_walkBound {s : Store} (hT : s.Holds none T) (hn : T.ids.Nodup) :
    2 * Tree.load (2 * s.breadth + 6) [T] + 1 ≤ walkBound s := by
  have hids := hT.length_le hn
  have htally : T.tally .variableDecl ≤ T.ids.length := Tree.count_le_length
  have hweight := s.size_add_breadth_le
  have hload : Tree.load (2 * s.breadth + 6) [T] = T.ids.length + (2 * s.breadth + 6) * T.tally .variableDecl := by
    simp [Tree.load]
  calc 2 * Tree.load (2 * s.breadth + 6) [T] + 1
      = 2 * (T.ids.length + (2 * s.breadth + 6) * T.tally .variableDecl) + 1 := by rw [hload]
    _ ≤ 2 * (s.weight + (2 * s.weight + 6) * s.weight) + 1 := by gcongr <;> omega
    _ ≤ walkBound s := by
      unfold walkBound
      nlinarith

/-- **The pass meets no bound**, and makes no more getters than there are declarations. -/
theorem run_spends (hs : w.store.Sound) (hf : T.Fits) (hn : T.ids.Nodup) (hT : w.store.Holds none T) :
    Ends (run T.id) w (fun _ w' => w'.own.stats.getters ≤ T.tally .variableDecl) fun e _ => ¬ Endless e := by
  by_cases hl : T.label = .module
  · -- the catalog at the start is of no account
    rw [Ends, run_own hT.top (hf.isModule_kind.2 hl) {}]
    have hst : Stands _ T.id ⟨w.store, {}⟩ T := ⟨rfl, hl, _, _, has_of_holds hs hf hn hT⟩
    have hI : Bounds (w.store.outside T) T.id (2 * w.store.breadth + 6) (Lower.Traced w.store) :=
      ⟨kept_traced, fun w' hw v hv => by
        have := (hw.catalog v hv).depth_le
        omega⟩
    have hstart : Lower.Traced w.store ⟨w.store, {}⟩ := ⟨.refl hs, .refl _, by simp⟩
    show Ends (run T.id) ⟨w.store, {}⟩ _ _
    rw [ends_run (w := ⟨w.store, {}⟩) hT.top, if_pos (by exact hf.isModule_kind.2 hl)]
    refine ((walk_spends hI _).1 (K := []) hst hstart (load_lt_walkBound hT hn)).mono ?_ fun _ _ he => he
    rintro _ w' ⟨-, es, gs, t', -, -, hspent⟩
    have hgetters := hspent.getters
    rw [Tree.tallyAll_cons, Tree.tallyAll_nil] at hgetters
    show w'.own.stats.getters ≤ _
    have hzero : (Workspace.mk w.store ({} : Progress)).own.stats.getters = 0 := rfl
    omega
  · rw [ends_run hT.top, if_neg (by exact mt hf.isModule_kind.1 hl)]
    rintro ⟨i, hi⟩
    cases hi

/-- How many accesses the pass has lowered. -/
def Stats.lowered (st : Stats) : Nat := st.reads + st.writes + st.augWrites

/-- A visit makes and takes away nodes below the module as its statistics say. -/
theorem dispatch_tally {c : Catalog} {st : Stats} {G : Outside} {i : NodeId} {τ : Tag}
    (h : Has w c st [(none, T)] [] G) (hi : i ∈ T.ids) (hτ : τ.counted = true) :
    Ends (visitor.dispatch i T.id) w (fun _ w' => (w'.store.preorder T.id).countP (·.tag = τ) +
      τ.taken w'.own.stats +
      τ.made w.own.stats = (w.store.preorder T.id).countP (·.tag = τ) + τ.taken w.own.stats + τ.made w'.own.stats)
      fun _ _ => True := by
  have htally : ∀ {w : Workspace Progress} {c : Catalog} {st : Stats} {T : Tree}, Has w c st [(none, T)] [] G →
      (w.store.preorder T.id).countP (·.tag = τ) = T.tally τ := by
    intro w c st T h
    have hT := h.holds
    have hf := h.fits
    rw [hT.preorder_eq hf h.nodup, hT.countP_tag hf]
  obtain ⟨K, t, rfl, rfl⟩ := Tree.exists_place hi
  refine (dispatch_spec h).mono ?_ fun _ _ _ => trivial
  rintro _ w' hv
  obtain ⟨c', T', hid, h', hsame⟩ := hv.tally h hτ
  rw [htally h, ← hid, htally h', h.own]
  exact hsame

/-- The nodes of a sort below the module are `n`, but for those that the statistics account for. -/
def Balanced (m : NodeId) (τ : Tag) (n : Nat) (w : Workspace Progress) : Prop :=
  (w.store.preorder m).countP (·.tag = τ) + τ.taken w.own.stats = n + τ.made w.own.stats

theorem kept_balanced {G : Outside} {τ : Tag} {n : Nat} (hτ : τ.counted = true) :
    Kept G m (Balanced m τ n) fun _ => True := by
  intro w T i hst hi hw
  obtain ⟨c, st, h⟩ := hst.has
  obtain rfl := hst.id
  refine (dispatch_tally h hi hτ).mono (fun _ w' hsame => ?_) fun _ _ _ => trivial
  unfold Balanced at hw ⊢
  omega

/-- A contract with a public map, in which one read is the key of another, and a module among its declarations:
```
m: public(HashMap[uint256, uint256])
def f():
    self.m[self.m[1]] += self.m[2]
```
-/
def nest : Store :=
  let member (i j : NodeId) : Tree := .node i none (.member "m") [.leaf j none (.name "self")] [] []
  let entry (i j k : NodeId) (key : Tree) : Tree := .node i none .subscript [member j k, key] [] []
  .ofTree
    (.node ⟨0⟩ none .module [] [
      .node ⟨1⟩ (some (.mapping (.uint 256) (.uint 256))) (.variableDecl true false false)
        [.leaf ⟨2⟩ none (.name "m")] [] [],
      .node ⟨3⟩ none (.functionDef "f" .external .nonPayable) [] [
        .node ⟨4⟩ none (.augAssign .add) [
          entry ⟨5⟩ ⟨6⟩ ⟨7⟩ (entry ⟨8⟩ ⟨9⟩ ⟨10⟩ (.leaf ⟨11⟩ none (.int 1))),
          entry ⟨12⟩ ⟨13⟩ ⟨14⟩ (.leaf ⟨15⟩ none (.int 2))] [] []] [],
      .node ⟨16⟩ none .module [] [] []] [])
    ⟨17⟩

end Lowering

end ContractTree
