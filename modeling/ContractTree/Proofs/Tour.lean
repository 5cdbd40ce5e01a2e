import ContractTree.Proofs.Handler
import ContractTree.Proofs.Walk

/-!
Which nodes a walk visits. The visits that a walk makes are those that it writes down when its visitor keeps a log
(`Visitor.visits`), which changes nothing else (`Visitor.erases_walk`). If each visit comes to a deed, then the log
follows the tree of the module as `Surveyed` says (`Visitor.surveyed_of_walk`).
-/

namespace ContractTree

/-! ## The log of a walk -/

section Log

variable {ε σ α β : Type}

/-- The workspace without the log. -/
def Workspace.forget (w : Workspace (σ × List Visit)) : Workspace σ := { store := w.store, own := w.own.1 }

/-- Without the log, `x` does what `y` does. -/
def Erases (x : Work ε (σ × List Visit) α) (y : Work ε σ α) : Prop := ∀ w, y w.forget = match x w with
  | .ok a w' => .ok a w'.forget
  | .error e w' => .error e w'.forget

variable {x : Work ε (σ × List Visit) α} {y : Work ε σ α}

theorem Erases.bind {f : α → Work ε (σ × List Visit) β} {g : α → Work ε σ β} (h : Erases x y)
    (hf : ∀ a, Erases (f a) (g a)) : Erases (x >>= f) (y >>= g) := by
  intro w
  have hw := h w
  cases hx : x w with
  | ok a w' =>
    rw [hx] at hw
    rw [bind_of_ok hw, bind_of_ok hx]
    exact hf a w'
  | error e w' =>
    rw [hx] at hw
    rw [bind_of_error hw, bind_of_error hx]

theorem erases_pure (a : α) : Erases (pure a : Work ε (σ × List Visit) α) (pure a) := fun _ => rfl

theorem erases_throw (e : ε) : Erases (throw e : Work ε (σ × List Visit) α) (throw e) := fun _ => rfl

theorem erases_store : Erases (Work.store : Work ε (σ × List Visit) Store) Work.store := fun _ => rfl

theorem erases_edit (wrap : StructuralError → ε) (e : Edit α) :
    Erases (Work.edit wrap e : Work ε (σ × List Visit) α) (Work.edit wrap e) := by
  intro w
  unfold Work.edit
  rw [show w.forget.store = w.store from rfl]
  cases e w.store <;> rfl

end Log

namespace Visitor

variable {ε σ : Type} (v : Visitor ε σ)

/-- The visitor that also writes down each visit that succeeds. -/
def logged : Visitor ε (σ × List Visit) where
  wrap := v.wrap
  visit tag id module := fun w =>
    match v.visit tag id module w.forget with
    | .ok _ w' => .ok () { store := w'.store, own := (w'.own, w.own.2 ++ [⟨id, w.store, w'.store⟩]) }
    | .error e w' => .error e { store := w'.store, own := (w'.own, w.own.2) }

/-- The visits that a walk makes. -/
def visits (fuel : Nat) (module : NodeId) (w : Workspace σ) : List Visit :=
  (final (v.logged.walk fuel module) { store := w.store, own := (w.own, []) }).own.2

variable (m : NodeId)

theorem erases_dispatch (i : NodeId) : Erases (v.logged.dispatch i m) (v.dispatch i m) := by
  refine (erases_edit v.wrap (Edit.node i)).bind fun n w => ?_
  simp only [logged]
  cases v.visit n.tag i m w.forget <;> rfl

theorem erases_settle (fuel : Nat) (i : NodeId) : Erases (v.logged.settle m fuel i) (v.settle m fuel i) := by
  induction fuel generalizing i with
  | zero => exact erases_throw _
  | succ fuel ih =>
    unfold settle
    refine (v.erases_dispatch m i).bind fun _ => erases_store.bind fun s => ?_
    split
    · exact erases_pure _
    · split
      · exact erases_pure _
      · split
        · exact ih _
        · exact erases_pure _

theorem erases_walkNode (fuel : Nat) : (∀ i, Erases (v.logged.walkNode m fuel i) (v.walkNode m fuel i)) ∧
    ∀ i index, Erases (v.logged.walkChildren m fuel i index) (v.walkChildren m fuel i index) := by
  induction fuel with
  | zero => exact ⟨fun _ => erases_throw _, fun _ _ => erases_throw _⟩
  | succ fuel ih =>
    refine ⟨fun i => ?_, fun i index => ?_⟩
    · unfold walkNode
      refine (v.erases_settle m fuel i).bind fun r => ?_
      cases r with
      | none => exact erases_pure _
      | some current => exact ih.2 current 0
    · unfold walkChildren
      refine erases_store.bind fun s => ?_
      dsimp only
      cases (s.children i)[index]? with
      | none => exact erases_pure _
      | some child =>
        refine (ih.1 child).bind fun r => erases_store.bind fun s' => ?_
        split
        · exact ih.2 _ _
        · exact erases_pure _

theorem erases_walk (fuel : Nat) : Erases (v.logged.walk fuel m) (v.walk fuel m) := by
  refine (erases_edit v.wrap (Edit.node m)).bind fun n => ?_
  split
  · exact ((v.erases_walkNode m fuel).1 m).bind fun _ => erases_pure _
  · exact erases_throw _

/-- A walk that succeeds also does with the log. -/
theorem exists_logged {fuel : Nat} {w w' : Workspace σ} (h : v.walk fuel m w = .ok () w') :
    v.logged.walk fuel m { store := w.store, own := (w.own, []) } =
      .ok () { store := w'.store, own := (w'.own, v.visits fuel m w) } := by
  have he := v.erases_walk m fuel { store := w.store, own := (w.own, []) }
  rw [show Workspace.forget { store := w.store, own := (w.own, []) } = w from rfl, h] at he
  unfold visits final
  cases hl : v.logged.walk fuel m { store := w.store, own := (w.own, []) } with
  | ok a w₁ =>
    rw [hl] at he
    obtain ⟨rfl, rfl⟩ := EStateM.Result.ok.inj he
    rfl
  | error e w₁ =>
    rw [hl] at he
    cases he

/-! ## What is written down -/

/-- The visitor made this visit. -/
def Made (e : Visit) : Prop := ∃ tag own w, v.visit tag e.node m { store := e.before, own } = .ok () w ∧
    w.store = e.after

/-- What was written down between two workspaces: visits that were made, one after the other. -/
def Records (w w' : Workspace (σ × List Visit)) : Prop :=
  ∃ L, w'.own.2 = w.own.2 ++ L ∧ Chained w.store L w'.store ∧ ∀ e ∈ L, v.Made m e

/-- The work only writes down visits. -/
abbrev Logs {α : Type} (x : Work ε (σ × List Visit) α) : Prop :=
  ∀ w, Ends x w (fun _ w' => v.Records m w w') fun _ _ => True

section Records

variable {v m} {w w₁ w₂ w₃ : Workspace (σ × List Visit)} {α β : Type}

theorem Records.refl (w : Workspace (σ × List Visit)) : v.Records m w w := ⟨[], by simp, rfl, by simp⟩

theorem Records.trans (h : v.Records m w₁ w₂) (h' : v.Records m w₂ w₃) : v.Records m w₁ w₃ := by
  obtain ⟨L, hL, hc, hm⟩ := h
  obtain ⟨L', hL', hc', hm'⟩ := h'
  exact ⟨L ++ L', by rw [hL', hL, List.append_assoc], Chained.append.2 ⟨_, hc, hc'⟩,
    List.forall_mem_append.2 ⟨hm, hm'⟩⟩

theorem Records.subset (h : v.Records m w₁ w₂) : w₁.own.2 ⊆ w₂.own.2 := by
  obtain ⟨L, hL, -⟩ := h
  rw [hL]
  exact List.subset_append_left _ _

theorem Logs.bind {x : Work ε (σ × List Visit) α} {f : α → Work ε (σ × List Visit) β} (h : v.Logs m x)
    (hf : ∀ a, v.Logs m (f a)) : v.Logs m (x >>= f) := fun w =>
  ends_bind.2 ((h w).mono (fun a w' hw => (hf a w').mono (fun _ _ hw' => hw.trans hw') fun _ _ h => h)
    fun _ _ h => h)

theorem logs_pure (a : α) : v.Logs m (pure a) := fun w => Records.refl w

theorem logs_throw (e : ε) : v.Logs m (throw e : Work ε (σ × List Visit) α) := fun _ => trivial

theorem logs_store : v.Logs m Work.store := fun w => Records.refl w

/-- A node is looked up and visited, and the visit is written down. -/
theorem ends_dispatch (i : NodeId) (w : Workspace (σ × List Visit)) : Ends (v.logged.dispatch i m) w
    (fun _ w' => w'.own.2 = w.own.2 ++ [⟨i, w.store, w'.store⟩] ∧ v.Made m ⟨i, w.store, w'.store⟩)
    fun _ _ => True := by
  unfold dispatch
  rw [ends_bind]
  unfold Ends Work.edit
  rw [Edit.node_apply]
  cases w.store.find? i with
  | none => trivial
  | some n =>
    simp only [logged]
    cases hvisit : v.visit n.tag i m w.forget with
    | ok _ w' => exact ⟨rfl, n.tag, w.own.1, w', hvisit, rfl⟩
    | error => trivial

end Records

theorem logs_dispatch (i : NodeId) : v.Logs m (v.logged.dispatch i m) := fun w =>
  (ends_dispatch i w).mono (fun _ _ h => ⟨_, h.1, ⟨rfl, rfl⟩, List.forall_mem_singleton.2 h.2⟩) fun _ _ h => h

/-- What follows the visit to a node, when `f` goes on with what replaced it. -/
theorem logs_next {f : NodeId → Work ε (σ × List Visit) (Option NodeId)} (hf : ∀ i, v.Logs m (f i)) (i : NodeId) :
    v.Logs m (do
      let s ← Work.store
      if s.isAttached i then return some i
      match s.replacementOf? i with
      | none => return none
      | some next => if s.isAttached next then f next else return none) := by
  refine logs_store.bind fun s => ?_
  split
  · exact logs_pure _
  · split
    · exact logs_pure _
    · split
      · exact hf _
      · exact logs_pure _

theorem logs_settle (fuel : Nat) (i : NodeId) : v.Logs m (v.logged.settle m fuel i) := by
  induction fuel generalizing i with
  | zero => exact logs_throw _
  | succ fuel ih => exact (v.logs_dispatch m i).bind fun _ => v.logs_next m ih i

theorem logs_walkNode (fuel : Nat) : (∀ i, v.Logs m (v.logged.walkNode m fuel i)) ∧
    ∀ i index, v.Logs m (v.logged.walkChildren m fuel i index) := by
  induction fuel with
  | zero => exact ⟨fun _ => logs_throw _, fun _ _ => logs_throw _⟩
  | succ fuel ih =>
    refine ⟨fun i => ?_, fun i index => ?_⟩
    · unfold walkNode
      refine (v.logs_settle m fuel i).bind fun r => ?_
      cases r with
      | none => exact logs_pure _
      | some current => exact ih.2 current 0
    · unfold walkChildren
      refine logs_store.bind fun s => ?_
      dsimp only
      cases (s.children i)[index]? with
      | none => exact logs_pure _
      | some child =>
        refine (ih.1 child).bind fun r => logs_store.bind fun s' => ?_
        split
        · exact ih.2 _ _
        · exact logs_pure _

theorem logs_walk (fuel : Nat) : v.Logs m (v.logged.walk fuel m) := by
  refine Logs.bind (fun w => ?_) fun n => ?_
  · unfold Ends Work.edit
    rw [Edit.node_apply]
    cases w.store.find? m with
    | none => trivial
    | some n => exact Records.refl w
  · split
    · exact ((v.logs_walkNode m fuel).1 m).bind fun _ => logs_pure _
    · exact logs_throw _

end Visitor

/-! ## The walk over a place -/

/-- The store is sound and holds the tree `T` of the module `m`. -/
structure Standing (m : NodeId) (T : Tree) (s : Store) : Prop where
  sound : s.Sound
  module : s.HoldsModule T
  id : T.id = m

/-- Whatever node of the module a visit is to, it did what its deed says. -/
def Deeds (deed : Visit → Deed) (m : NodeId) (L : List Visit) : Prop :=
  ∀ e ∈ L, ∀ (K : Ctx) (t : Tree), Standing m (K.plug t) e.before → t.id = e.node → Acts K t (deed e) e

/-- Each visit is to a node of the module. -/
def Met (m : NodeId) (L : List Visit) : Prop :=
  ∀ e ∈ L, ∃ (K : Ctx) (t : Tree), Standing m (K.plug t) e.before ∧ t.id = e.node

/-- Between two workspaces `L` was written down, and then the store holds the module with `t'` in the place that
was `K` and is `K'`: what was put there since is in front of it, or at the end of the module. -/
structure Went {σ : Type} (deed : Visit → Deed) (m : NodeId) (K K' : Ctx) (t' : Tree)
    (w w' : Workspace (σ × List Visit)) (L : List Visit) : Prop where
  log : w'.own.2 = w.own.2 ++ L
  met : Met m L
  context : ∃ es, K' = (K.emit es).extend (appendedAll deed L)
  stands : Standing m (K'.plug t') w'.store

section Went

variable {σ : Type} {deed : Visit → Deed} {m : NodeId} {K K₁ K₂ : Ctx} {t t₁ t₂ : Tree}
  {w w₁ w₂ : Workspace (σ × List Visit)} {L L₁ L₂ : List Visit} {f : Frame}

theorem Standing.isAttached {s : Store} {T : Tree} {i : NodeId} (h : Standing m T s) (hi : i ∈ T.ids) :
    s.isAttached i = true :=
  Store.isAttached_of_mem h.module.holds h.module.fits h.module.nodup h.module.label hi

/-- A node has one place in the module. -/
theorem Standing.unique {s : Store} (h : Standing m (K.plug t) s) (h' : Standing m (K₁.plug t₁) s)
    (hid : t.id = t₁.id) : K = K₁ ∧ t = t₁ :=
  Ctx.plug_inj (h.module.holds.unique h.module.fits h.module.nodup h'.module.holds h'.module.fits h'.module.nodup
    (h.id.trans h'.id.symm)) h.module.nodup hid

theorem Standing.children {s : Store} {k : Tree} (h : Standing m (Ctx.plug (f :: K) k) s) :
    s.children f.id = (f.before ++ k :: f.after).map Tree.id := by
  have hch := (Store.Holds.inside (C := K) h.module.holds).children (Ctx.fits_of_plug (C := K) h.module.fits)
  rw [Frame.id_plug, Frame.kids_plug, List.append_assoc] at hch
  exact hch

theorem Standing.children_getElem? {s : Store} {k : Tree} (h : Standing m (Ctx.plug (f :: K) k) s) :
    (s.children f.id)[f.before.length]? = some k.id := by
  rw [h.children]
  simp

theorem Went.refl (h : Standing m (K.plug t) w.store) : Went deed m K K t w w [] :=
  ⟨by simp, by simp [Met], ⟨[], by simp⟩, h⟩

theorem Went.trans (h : Went deed m K K₁ t₁ w w₁ L₁) (h' : Went deed m K₁ K₂ t₂ w₁ w₂ L₂) :
    Went deed m K K₂ t₂ w w₂ (L₁ ++ L₂) := by
  refine ⟨by rw [h'.log, h.log, List.append_assoc], List.forall_mem_append.2 ⟨h.met, h'.met⟩, ?_, h'.stands⟩
  obtain ⟨es, rfl⟩ := h.context
  obtain ⟨es', rfl⟩ := h'.context
  exact ⟨es ++ es', by rw [Ctx.emit_extend, Ctx.emit_emit, Ctx.extend_extend, appendedAll_append]⟩

theorem Went.ne_nil (hK : K ≠ []) (h : Went deed m K K₁ t₁ w w₁ L) : K₁ ≠ [] := by
  obtain ⟨es, rfl⟩ := h.context
  exact Ctx.extend_ne_nil (Ctx.emit_ne_nil hK)

/-- Seen from the node above the place, only the children in front of the place are others. -/
theorem Went.up (hK : K ≠ []) (h : Went deed m (f :: K) K₁ t₁ w w₁ L) :
    ∃ (f' : Frame) (K' : Ctx), K₁ = f' :: K' ∧ f'.id = f.id ∧ f'.after = f.after ∧
      Went deed m K K' (f'.plug [t₁]) w w₁ L := by
  obtain ⟨es, rfl⟩ := h.context
  obtain ⟨f', es', heq, hid, hafter⟩ := Ctx.exists_up hK f es (appendedAll deed L)
  rw [heq] at h ⊢
  exact ⟨f', _, rfl, hid, hafter, h.log, h.met, ⟨es', rfl⟩, h.stands⟩

end Went

/-- An element of two lists that follow each other is in the first or in the second of them. -/
theorem split_append_cons {α : Type} {as bs xs ys : List α} {a : α} (h : as ++ bs = xs ++ a :: ys) :
    (∃ zs, as = xs ++ a :: zs ∧ ys = zs ++ bs) ∨ ∃ zs, xs = as ++ zs ∧ bs = zs ++ a :: ys := by
  rcases List.append_eq_append_iff.1 h with ⟨zs, hxs, hbs⟩ | ⟨zs, has, hys⟩
  · exact .inr ⟨zs, hxs, hbs⟩
  · cases zs with
    | nil => exact .inr ⟨[], by simpa using has.symm, by simpa using hys.symm⟩
    | cons z zs =>
      obtain ⟨rfl, rfl⟩ := List.cons.inj hys
      exact .inl ⟨zs, has, rfl⟩

/-- A child of a node is in a place of the node, between the children in front of it and those behind it. -/
theorem Tree.exists_frame_between {t k : Tree} {done rest : List Tree} (h : t.kids = done ++ k :: rest) :
    ∃ f : Frame, f.plug [k] = t ∧ f.before = done ∧ f.after = rest := by
  obtain ⟨i, ty, l, hs, bs, os⟩ := t
  rw [kids_node] at h
  rcases split_append_cons h with ⟨zs, hfront, rfl⟩ | ⟨zs, rfl, rfl⟩
  · rcases split_append_cons hfront with ⟨ys, rfl, rfl⟩ | ⟨ys, rfl, rfl⟩
    · exact ⟨⟨i, ty, l, .heads, done, ys, bs, os⟩, by simp [Frame.plug], rfl, rfl⟩
    · exact ⟨⟨i, ty, l, .body, ys, zs, hs, os⟩, by simp [Frame.plug], rfl, rfl⟩
  · exact ⟨⟨i, ty, l, .orelse, zs, rest, hs, bs⟩, by simp [Frame.plug], rfl, rfl⟩

namespace Visitor

variable {ε σ : Type} {v : Visitor ε σ} {m : NodeId} {K : Ctx} {t : Tree} {fuel : Nat} {r : Option NodeId}

/-! ## One child after the other -/

section Children

variable {w w' : Workspace σ} {f : Frame} {k : Tree} {done : List Tree}

/-- Behind the last child the walk over the children ends. -/
theorem walkChildren_last (h : Standing m (K.plug t) w.store) :
    v.walkChildren m (fuel + 1) t.id t.kids.length w = .ok (some t.id) w := by
  have hget : (w.store.children t.id)[t.kids.length]? = none := by
    rw [h.module.holds.inside.children (Ctx.fits_of_plug h.module.fits)]
    simp
  rw [walkChildren, bind_of_ok (show Work.store w = .ok w.store w from rfl)]
  simp only [hget]
  rfl

/-- A child is walked, and then the walk goes on behind what is in its place. -/
theorem walkChildren_next {f' : Frame} {K' : Ctx} {k' : Tree} {w₁ : Workspace σ}
    (h : Standing m (Ctx.plug (f :: K) k) w.store) (hnode : v.walkNode m fuel k.id w = .ok (some k'.id) w₁)
    (hid : f'.id = f.id) (h₁ : Standing m (Ctx.plug (f' :: K') k') w₁.store) :
    v.walkChildren m (fuel + 1) f.id f.before.length w = v.walkChildren m fuel f.id (f'.before.length + 1) w₁ := by
  have hf : f.id ∈ (Ctx.plug (f' :: K') k').ids := (Ctx.mem_ids_plug _ _ _).2 (.inl (hid ▸ List.mem_cons_self))
  have hindex := Lowering.nextIndex_plug h₁.module.nodup (w.store.children f.id)[f.before.length + 1]?
  rw [Frame.kids_plug, List.append_assoc, List.singleton_append, ← h₁.children, hid] at hindex
  rw [walkChildren, bind_of_ok (show Work.store w = .ok w.store w from rfl)]
  simp only [h.children_getElem?]
  rw [bind_of_ok hnode, bind_of_ok (show Work.store w₁ = .ok w₁.store w₁ from rfl),
    if_pos (h₁.isAttached hf), hindex]

end Children

/-! ## The walk over a tree -/

section Tour

variable {deed : Visit → Deed} {w w' : Workspace (σ × List Visit)}

/-- The node is visited. If the visit leaves it in its place, the walk stays there, and else goes on with the
replacement. -/
theorem exists_visit_of_settle (h : Standing m (K.plug t) w.store)
    (hrun : v.logged.settle m (fuel + 1) t.id w = .ok r w') (hd : Deeds deed m w'.own.2) :
    ∃ (e : Visit) (w₁ : Workspace (σ × List Visit)), e.node = t.id ∧ e.before = w.store ∧
      w₁.own.2 = w.own.2 ++ [e] ∧ (K = [] → (deed e).inserted = [] ∧ (deed e).replacement = none) ∧
      Standing m ((deed e).result K t) w₁.store ∧ ((deed e).replacement = none → r = some t.id ∧ w' = w₁) ∧
      ∀ N, (deed e).replacement = some N → v.logged.settle m fuel N.id w₁ = .ok r w' := by
  unfold settle at hrun
  cases hdis : v.logged.dispatch t.id m w with
  | error e w₁ =>
    rw [bind_of_error hdis] at hrun
    cases hrun
  | ok u w₁ =>
    rw [bind_of_ok hdis] at hrun
    have hsub := ((v.logs_next m (v.logs_settle m fuel) t.id w₁).of_ok hrun).subset
    have hlog := ((ends_dispatch t.id w).of_ok hdis).1
    rw [bind_of_ok (show Work.store w₁ = .ok w₁.store w₁ from rfl)] at hrun
    obtain ⟨e, he⟩ : ∃ e : Visit, e = ⟨t.id, w.store, w₁.store⟩ := ⟨_, rfl⟩
    rw [← he] at hlog
    have hbefore : e.before = w.store := by rw [he]
    have hafter : e.after = w₁.store := by rw [he]
    have hnode : e.node = t.id := by rw [he]
    have hacts : Acts K t (deed e) e := hd e (hsub (by rw [hlog]; simp)) K t (hbefore ▸ h) hnode.symm
    have hstands : Standing m ((deed e).result K t) w₁.store :=
      ⟨hafter ▸ hacts.sound, hafter ▸ hacts.module, (Deed.id_result fun hK => (hacts.root hK).2).trans h.id⟩
    have hatt : w₁.store.isAttached ((deed e).replacement.getD t).id = true :=
      hstands.isAttached (Tree.ids_subset_addDecls (Ctx.id_mem_plug _ _))
    refine ⟨e, w₁, hnode, hbefore, hlog, hacts.root, hstands, fun hr => ?_, fun N hr => ?_⟩
    · rw [hr, Option.getD_none] at hatt
      rw [if_pos hatt] at hrun
      obtain ⟨rfl, rfl⟩ := EStateM.Result.ok.inj hrun
      exact ⟨rfl, rfl⟩
    · obtain ⟨hgone, hrep⟩ := hacts.moved N hr
      rw [hafter] at hgone hrep
      rw [hr, Option.getD_some] at hatt
      simpa only [hgone, hrep, hatt, Bool.false_eq_true, if_false, if_true] using hrun

/-- A node is visited, and what replaces it, until one stays. -/
theorem settle_went (hK : K ≠ []) (h : Standing m (K.plug t) w.store)
    (hrun : v.logged.settle m fuel t.id w = .ok r w') (hd : Deeds deed m w'.own.2) :
    ∃ L K' t', Went deed m K K' t' w w' L ∧ r = some t'.id ∧ ∀ L', Toured deed t'.kids L' →
      Toured deed [t] (L ++ L') := by
  induction fuel generalizing w K t with
  | zero => cases hrun
  | succ fuel ih =>
    obtain ⟨e, w₁, hnode, hbefore, hlog, -, hstands, hstay, hmove⟩ := exists_visit_of_settle h hrun hd
    rw [Deed.result_eq (Ctx.bodied_of_plug hK h.module.fits h.module.label)] at hstands
    have hwent : Went deed m K ((K.emit (deed e).inserted).extend (deed e).appended) ((deed e).replacement.getD t)
        w w₁ [e] := by
      refine ⟨hlog, ?_, ⟨(deed e).inserted, by simp⟩, hstands⟩
      rw [Met, List.forall_mem_singleton]
      exact ⟨K, t, hbefore ▸ h, hnode.symm⟩
    cases hr : (deed e).replacement with
    | none =>
      obtain ⟨rfl, rfl⟩ := hstay hr
      rw [hr, Option.getD_none] at hwent
      refine ⟨[e], _, t, hwent, rfl, fun L' hL' => ?_⟩
      have := Toured.stay hnode hr hL' .nil
      rwa [List.append_nil] at this
    | some N =>
      rw [hr, Option.getD_some] at hwent hstands
      obtain ⟨L, K', t', hwent', rfl, htour⟩ := ih (Ctx.extend_ne_nil (Ctx.emit_ne_nil hK)) hstands (hmove N hr)
      refine ⟨e :: L, K', t', hwent.trans hwent', rfl, fun L' hL' => ?_⟩
      have := Toured.moved hnode hr (htour L' hL') .nil
      rwa [List.append_nil] at this

/-- What the walk over a tree in a place below the module does, given so much fuel. -/
def ToursNode (v : Visitor ε σ) (deed : Visit → Deed) (m : NodeId) (fuel : Nat) : Prop :=
  ∀ (w w' : Workspace (σ × List Visit)) (K : Ctx) (t : Tree) (r : Option NodeId), K ≠ [] →
    Standing m (K.plug t) w.store → v.logged.walkNode m fuel t.id w = .ok r w' → Deeds deed m w'.own.2 →
    ∃ L K' t', Went deed m K K' t' w w' L ∧ r = some t'.id ∧ Toured deed [t] L

/-- What the walk over the children of a node from one of them on does, given so much fuel. -/
def ToursChildren (v : Visitor ε σ) (deed : Visit → Deed) (m : NodeId) (fuel : Nat) : Prop :=
  ∀ (w w' : Workspace (σ × List Visit)) (K : Ctx) (t : Tree) (done rest : List Tree) (r : Option NodeId), K ≠ [] →
    Standing m (K.plug t) w.store → t.kids = done ++ rest →
    v.logged.walkChildren m fuel t.id done.length w = .ok r w' →
    Deeds deed m w'.own.2 → ∃ L K' t', Went deed m K K' t' w w' L ∧ r = some t'.id ∧ t'.id = t.id ∧
    Toured deed rest L

/-- The walk over a node settles, and then goes over the children of what is in the place. -/
theorem exists_settle_of_walkNode {i : NodeId} (hrun : v.logged.walkNode m (fuel + 1) i w = .ok r w') :
    ∃ r₁ w₁, v.logged.settle m fuel i w = .ok r₁ w₁ ∧ w₁.own.2 ⊆ w'.own.2 ∧
      ∀ j, r₁ = some j → v.logged.walkChildren m fuel j 0 w₁ = .ok r w' := by
  unfold walkNode at hrun
  cases hset : v.logged.settle m fuel i w with
  | error e w₁ =>
    rw [bind_of_error hset] at hrun
    cases hrun
  | ok r₁ w₁ =>
    rw [bind_of_ok hset] at hrun
    cases r₁ with
    | none => exact ⟨none, w₁, rfl, ((logs_pure (v := v) (m := m) none w₁).of_ok hrun).subset, by simp⟩
    | some j =>
      refine ⟨some j, w₁, rfl, (((v.logs_walkNode m fuel).2 j 0 w₁).of_ok hrun).subset, ?_⟩
      rintro _ ⟨⟩
      exact hrun

theorem exists_node_of_walkChildren {i j : NodeId} {index : Nat} (hget : (w.store.children i)[index]? = some j)
    (hrun : v.logged.walkChildren m (fuel + 1) i index w = .ok r w') :
    ∃ r₁ w₁, v.logged.walkNode m fuel j w = .ok r₁ w₁ ∧ w₁.own.2 ⊆ w'.own.2 := by
  unfold walkChildren at hrun
  rw [bind_of_ok (show Work.store w = .ok w.store w from rfl)] at hrun
  simp only [hget] at hrun
  cases hnode : v.logged.walkNode m fuel j w with
  | error e w₁ =>
    rw [bind_of_error hnode] at hrun
    cases hrun
  | ok r₁ w₁ =>
    rw [bind_of_ok hnode, bind_of_ok (show Work.store w₁ = .ok w₁.store w₁ from rfl)] at hrun
    refine ⟨r₁, w₁, rfl, ?_⟩
    split at hrun
    · exact (((v.logs_walkNode m fuel).2 _ _ w₁).of_ok hrun).subset
    · exact ((logs_pure (v := v) (m := m) _ w₁).of_ok hrun).subset

theorem toursNode_succ (ih : ToursChildren v deed m fuel) : ToursNode v deed m (fuel + 1) := by
  intro w w' K t r hK h hrun hd
  obtain ⟨r₁, w₁, hset, hsub, hrest⟩ := exists_settle_of_walkNode hrun
  obtain ⟨L, K', t', hwent, rfl, htour⟩ := settle_went hK h hset fun e he => hd e (hsub he)
  obtain ⟨L', K'', t'', hwent', rfl, -, htour'⟩ :=
    ih w₁ w' K' t' [] t'.kids r (hwent.ne_nil hK) hwent.stands rfl (hrest _ rfl) hd
  exact ⟨L ++ L', K'', t'', hwent.trans hwent', rfl, htour L' htour'⟩

theorem toursChildren_succ (hnode : ToursNode v deed m fuel) (ih : ToursChildren v deed m fuel) :
    ToursChildren v deed m (fuel + 1) := by
  intro w w' K t done rest r hK h hkids hrun hd
  cases rest with
  | nil =>
    rw [List.append_nil] at hkids
    rw [← hkids, walkChildren_last h] at hrun
    obtain ⟨rfl, rfl⟩ := EStateM.Result.ok.inj hrun
    exact ⟨[], K, t, .refl h, rfl, rfl, .nil⟩
  | cons k rest =>
    obtain ⟨f, rfl, rfl, rfl⟩ := Tree.exists_frame_between hkids
    rw [Frame.id_plug] at hrun
    have hf : Standing m (Ctx.plug (f :: K) k) w.store := h
    obtain ⟨r₁, w₁, hwalk, hsub⟩ := exists_node_of_walkChildren hf.children_getElem? hrun
    obtain ⟨L, K₁, k', hwent, rfl, htour⟩ := hnode w w₁ (f :: K) k r₁ (by simp) h hwalk fun e he => hd e (hsub he)
    obtain ⟨f', K', rfl, hid, hafter, hup⟩ := hwent.up hK
    rw [walkChildren_next hf hwalk hid hwent.stands] at hrun
    obtain ⟨L', K'', t', hwent', rfl, hid', htour'⟩ :=
      ih w₁ w' K' (f'.plug [k']) (f'.before ++ [k']) f.after r (hup.ne_nil hK)
      hup.stands (by rw [Frame.kids_plug, hafter]) (by rw [Frame.id_plug, hid, List.length_append]; exact hrun) hd
    refine ⟨L ++ L', K'', t', hup.trans hwent', rfl, ?_, htour.append htour'⟩
    rw [hid', Frame.id_plug, Frame.id_plug, hid]

theorem toursNode (fuel : Nat) : ToursNode v deed m fuel ∧ ToursChildren v deed m fuel := by
  induction fuel with
  | zero => exact ⟨(fun _ _ _ _ _ _ _ hrun => by cases hrun), fun _ _ _ _ _ _ _ _ _ _ hrun => by cases hrun⟩
  | succ fuel ih => exact ⟨toursNode_succ ih.2, toursChildren_succ ih.1 ih.2⟩

/-! ## The walk over the module -/

/-- The visit finds the tree in the body of the module `m`, in front of these trees. -/
def FoundIn (m : NodeId) (d : Tree) (ds : List Tree) (x : Visit) : Prop :=
  ∃ ty done, Standing m (.node m ty .module [] (done ++ d :: ds) []) x.before

/-- The body of the module is walked as a queue. -/
theorem queued_of_walkChildren {ty : Option Ty} {done rest : List Tree}
    (h : Standing m (.node m ty .module [] (done ++ rest) []) w.store)
    (hrun : v.logged.walkChildren m fuel m done.length w = .ok r w') (hd : Deeds deed m w'.own.2) :
    ∃ L, w'.own.2 = w.own.2 ++ L ∧ Met m L ∧ Queued deed (FoundIn m) rest L := by
  induction fuel generalizing w done rest with
  | zero => cases hrun
  | succ fuel ih =>
    cases rest with
    | nil =>
      have hlast : v.logged.walkChildren m (fuel + 1) m ([] ++ (done ++ []) ++ []).length w = .ok (some m) w :=
        walkChildren_last (K := []) h
      rw [List.nil_append, List.append_nil, List.append_nil] at hlast
      obtain ⟨rfl, rfl⟩ := EStateM.Result.ok.inj (hlast.symm.trans hrun)
      exact ⟨[], by simp, by simp [Met], .nil⟩
    | cons d rest =>
      have hroot : Standing m (Ctx.plug [Lowering.rootFrame m ty done rest] d) w.store := by
        rw [Ctx.plug_cons, Ctx.plug_nil, Lowering.rootFrame_plug]
        simpa using h
      obtain ⟨r₁, w₁, hwalk, hsub⟩ := exists_node_of_walkChildren hroot.children_getElem? hrun
      obtain ⟨L, K', d', hwent, rfl, htour⟩ := (toursNode fuel).1 w w₁ _ d r₁ (by simp) hroot hwalk
        fun e he => hd e (hsub he)
      have hfound : ∀ x ∈ L.head?, FoundIn m d rest x := by
        intro x hx
        obtain ⟨L₀, hlog, hchain, -⟩ := ((v.logs_walkNode m fuel).1 d.id w).of_ok hwalk
        obtain rfl : L = L₀ := List.append_cancel_left (hwent.log.symm.trans hlog)
        obtain ⟨L, rfl⟩ := List.head?_eq_some_iff.1 hx
        exact ⟨ty, done, hchain.1 ▸ h⟩
      -- the rest of the queue, with what was appended at its end
      obtain ⟨es, rfl⟩ := hwent.context
      let f' := Lowering.rootFrame m ty (done ++ es) (rest ++ appendedAll deed L)
      have hstands : Standing m (Ctx.plug [f'] d') w₁.store := hwent.stands
      have hlen : (done ++ es ++ [d']).length = f'.before.length + 1 := by
        simp [f', Lowering.rootFrame, Frame.before, Nat.add_assoc]
      have hnext := walkChildren_next hroot hwalk (show f'.id = _ from rfl) hstands
      have hbody : Standing m (.node m ty .module [] ((done ++ es ++ [d']) ++ (rest ++ appendedAll deed L)) [])
        w₁.store := hstands
      obtain ⟨L', hlog, hmet, hq⟩ := ih hbody (by rw [hlen]; exact hnext.symm.trans hrun)
      exact ⟨L ++ L', by rw [hlog, hwent.log, List.append_assoc], List.forall_mem_append.2 ⟨hwent.met, hmet⟩,
        .cons htour hfound hq⟩

/-- **The visits of a walk.** -/
theorem surveyed_of_walk {T : Tree} (h : Standing m T w.store) (hrun : v.logged.walk fuel m w = .ok () w')
    (hd : Deeds deed m w'.own.2) : ∃ L, w'.own.2 = w.own.2 ++ L ∧ Met m L ∧ Surveyed deed (FoundIn m) T L := by
  obtain ⟨hs, hT, rfl⟩ := h
  have heq := Lowering.eq_module hT.fits hT.label
  have hnode : Work.edit v.logged.wrap (Edit.node T.id) w = .ok (T.root none) w := by
    unfold Work.edit
    rw [Edit.node_apply, hT.holds.top]
  unfold walk at hrun
  rw [bind_of_ok hnode, if_pos (by exact hT.fits.isModule_kind.2 hT.label)] at hrun
  cases hwalk : v.logged.walkNode T.id fuel T.id w with
  | error e w₁ =>
    rw [bind_of_error hwalk] at hrun
    cases hrun
  | ok r w₁ =>
    rw [bind_of_ok hwalk] at hrun
    obtain ⟨-, rfl⟩ := EStateM.Result.ok.inj hrun
    match fuel with
    | 0 => cases hwalk
    | 1 => cases hwalk
    | fuel + 2 =>
      obtain ⟨r₁, w₂, hset, hsub, hrest⟩ := exists_settle_of_walkNode hwalk
      obtain ⟨e, w₃, hnode, hbefore, hlog, hroot, hstands, hstay, -⟩ :=
        exists_visit_of_settle (K := []) ⟨hs, hT, rfl⟩ hset fun e he => hd e (hsub he)
      obtain ⟨rfl, rfl⟩ := hstay (hroot rfl).2
      have hresult : (deed e).result [] T =
          .node T.id T.ty .module [] ([] ++ (T.body ++ (deed e).appended)) [] := by
        rw [Deed.result, (hroot rfl).2, heq]
        rfl
      have hkids : T.kids = T.body := by
        rw [heq]
        simp
      rw [hresult] at hstands
      obtain ⟨L, hlog', hmet, hq⟩ := queued_of_walkChildren hstands (hrest _ rfl) hd
      refine ⟨e :: L, by rw [hlog', hlog, List.append_assoc]; rfl, ?_, .mk hnode (hroot rfl).2 (hkids ▸ hq)⟩
      exact List.forall_mem_cons.2 ⟨⟨[], T, hbefore ▸ ⟨hs, hT, rfl⟩, hnode.symm⟩, hmet⟩

end Tour

end Visitor

end ContractTree
