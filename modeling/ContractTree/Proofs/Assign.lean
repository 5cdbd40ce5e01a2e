import ContractTree.Lowering.Write
import ContractTree.Proofs.Hoist

/-!
How assignments to state variables are lowered in a store. On trees, `Stored` and `Combined` say what an assignment
and an augmented assignment become: the reads of the value and of the keys go first, then the value is bound to a
temporary, or the slot is read and the combination is bound to one, and a write of the temporary takes the place of
the statement. The temporaries and the keys of the write in `Combined` are new. The pass does just that
(`Lower.lowerAssign_track`, `Lower.lowerAugAssign_track`), or stops for a reason that `PassError.Fault` names, and
every store on the way keeps the tree of the module.
-/

namespace ContractTree

open Lowering (Progress Stats)

/-- The statement that binds `value` to `target`. -/
def assignTree (i : NodeId) (target value : Tree) : Tree := .node i none .assign [target, value] [] []

/-- A write of the slot of `v` under `keys`. -/
def writeTree (i slot : NodeId) (v : StorageVar) (ty : Option Ty) (keys : List Tree) (value : Tree) : Tree :=
  .node i ty .storageWrite (slotLeaf slot v :: (keys ++ [value])) [] []

/-- An assignment to a state variable becomes a write, with statements in front. -/
inductive Stored (c : Catalog) (ν : NodeId) : Tree → List Tree → Tree → Prop where
  | mk {i : NodeId} {ty : Option Ty} {target value value' : Tree} {v : StorageVar} {e₁ e₂ ks : List Tree}
      (bind temp slot operand write : NodeId) (hnew : ν ≤ temp) (ht : target.access? c = some v)
      (hval : Hoisted c ν [value] e₁ [value'])
      (hks : Hoisted c ν (target.links.map Link.key) e₂ ks) :
      Stored c ν (.node i ty .assign [target, value] [] [])
        (e₁ ++ e₂ ++ [assignTree bind (tempLeaf temp (some v.value)) value'])
        (writeTree write slot v (some v.value) ks (tempRef operand temp (some v.value)))

/-- One key becomes two, with a statement in front unless the key is an atom. -/
inductive Shared (ν : NodeId) : Tree → List Tree → Tree → Tree → Prop where
  | atom {i : NodeId} {ty : Option Ty} {l : Label} (copy : NodeId) (hnew : ν ≤ copy)
      (h : (l.kind [] [] []).isAtom = true) : Shared ν (.leaf i ty l) [] (.leaf i ty l) (.leaf copy ty l)
  | bound {k : Tree} (bind temp forRead forWrite : NodeId) (hnew : ν ≤ temp ∧ ν ≤ forWrite)
      (h : k.kind.isAtom = false) :
      Shared ν k [assignTree bind (tempLeaf temp k.ty) k] (tempRef forRead temp k.ty) (tempRef forWrite temp k.ty)

/-- Keys become pairs of keys, one for the read and one for the write. -/
inductive SharedAll (ν : NodeId) : List Tree → List Tree → List Tree → List Tree → Prop where
  | nil : SharedAll ν [] [] [] []
  | cons {k r w : Tree} {bs ks bs' rs ws : List Tree} (h : Shared ν k bs r w) (hs : SharedAll ν ks bs' rs ws) :
      SharedAll ν (k :: ks) (bs ++ bs') (r :: rs) (w :: ws)

/-- The identities of keys that were shared are still those of trees in the statements. -/
theorem SharedAll.mem_ids {ν : NodeId} {ks bs rs ws : List Tree} (h : SharedAll ν ks bs rs ws) {k : Tree}
    (hk : k ∈ ks) : (∃ b ∈ bs, k.id ∈ b.ids) ∨ ∃ r ∈ rs, k.id ∈ r.ids := by
  induction h with
  | nil => simp at hk
  | cons h hs ih =>
    rcases List.mem_cons.1 hk with rfl | hk
    · cases h with
      | atom copy hnew h => exact .inr ⟨_, List.mem_cons_self, Tree.id_mem_ids _⟩
      | bound bind temp forRead forWrite hnew h =>
        refine .inl ⟨_, List.mem_append_left _ List.mem_cons_self, ?_⟩
        simp [assignTree, Tree.ids, Tree.idsAll, Tree.id_mem_ids]
    · rcases ih hk with ⟨b, hb, hi⟩ | ⟨r, hr, hi⟩
      · exact .inl ⟨b, List.mem_append_right _ hb, hi⟩
      · exact .inr ⟨r, List.mem_cons_of_mem _ hr, hi⟩

/-- An augmented assignment to a state variable becomes a write, with statements in front. -/
inductive Combined (c : Catalog) (ν : NodeId) : Tree → List Tree → Tree → Prop where
  | mk {i : NodeId} {ty : Option Ty} {op : BinOp} {target value value' : Tree} {v : StorageVar}
      {e₁ e₂ ks bs rs ws : List Tree}
      (current combined readSlot writeSlot read currentRef combination compute combinedRef write : NodeId)
      (hnew : ν ≤ current ∧ ν ≤ combined) (ht : target.access? c = some v) (hval : Hoisted c ν [value] e₁ [value'])
      (hks : Hoisted c ν (target.links.map Link.key) e₂ ks) (hsh : SharedAll ν ks bs rs ws) :
      Combined c ν (.node i ty (.augAssign op) [target, value] [] [])
        (e₁ ++ e₂ ++ bs ++ [readTree read current readSlot v (some v.value) rs,
          assignTree compute (tempLeaf combined (some v.value))
            (.node combination (some v.value) (.binOp op) [tempRef currentRef current (some v.value), value'] []
              [])])
        (writeTree write writeSlot v (some v.value) ws (tempRef combinedRef combined (some v.value)))

namespace Lower

variable {w : Workspace Progress} {c : Catalog} {g : Guard c} {st : Stats} {F : Forest} {H : List Node}
  {G : Outside} {m : NodeId} {K : Ctx} {σ : Site} {i : NodeId} {ty : Option Ty} {l : Label} {target value : Tree}
  {v : StorageVar}

/-! ## The operands -/

/-- The reads of the value and then those of the keys are lowered. -/
theorem lowerOperands_track (hl : ∀ a b, (l.kind [a, b] [] []).assigned? = some b)
    (h : Has w c st [(none, K.plug (.node i ty l [target, value] [] []))] [] G) (hI : w.store.Tends g m G)
    (hm : (K.plug (.node i ty l [target, value] [] [])).id = m) (hσ : K.site? i = some σ) :
    Track g m G (pure ([.reads σ Kind.assigned? i] ++ (target.links.map Link.id).map (.reads σ Kind.slice?)))
      (lowerOperands i ⟨v, target.id, target.links.map Link.id⟩ σ) w (fun _ w' => ∃ e₁ value' e₂ ls,
        Hoisted c G.next [value] e₁ [value'] ∧ Hoisted c G.next (target.links.map Link.key) e₂ (ls.map Link.key) ∧
      ls.map Link.id = target.links.map Link.id ∧
      Has w' c (st + { reads := value.refs c + Tree.refsAll c (target.links.map Link.key) })
        [(none, (K.emit (e₁ ++ e₂)).plug (.node i ty l [target.base.wrap ls, value'] [] []))] [] G)
      (PassError.Fault (target.Flat ∧ value.Flat) (Hoistable c [value] ∧
        Hoistable c (target.links.map Link.key))) := by
  have hf : target.Fits := (Ctx.fits_of_plug h.fits).kid (by simp)
  unfold lowerOperands
  -- the value
  let fv : Frame := ⟨i, ty, l, .heads, [target], [], [], []⟩
  have hpick : Picks Kind.assigned? fv := by
    refine ⟨fun j => hl target.id j, rfl, fun k hk => ?_⟩
    have := congrArg Frame.left hk
    simp [fv, Link.frame] at this
  refine ((lowerReadsBelow_track (D := []) (f := fv) hpick h hI hm hσ).mono (fun _ _ h => h) fun e he =>
    he.mono And.right And.left).bind ?_
  rintro _ w₁ ⟨e₁, value', hval, h₁⟩ hI₁
  -- the keys
  let fk : Frame := ⟨i, ty, l, .heads, [], [value'], [], []⟩
  have hwrap := Tree.plug_links hf
  have hm₁ : ((K.emit e₁).plug (.node i ty l [target, value'] [] [])).id = m := by
    rw [Ctx.id_plug_emit]
    exact (Ctx.id_plug_of_site hσ).trans hm
  have hkeys := forM_lowersKeys (lowersKeys g m G σ) target.links target.base (K.emit e₁) [fk] (w := w₁)
    (by rw [hwrap]; exact h₁) hI₁ (by rw [hwrap]; exact hm₁) (by rw [hwrap, Ctx.site?_emit]; exact hσ)
    fun _ _ => trivial
  refine hkeys.mono ?_ fun e he => he.mono (fun hs k hk => Tree.All.key hs.1 hk) And.right
  rintro _ w₂ ⟨e₂, ls, hls, hids, -, h₂⟩
  rw [Ctx.emit_emit, Stats.add_reads] at h₂
  exact ⟨e₁, value', e₂, ls, hval, hls, hids, h₂⟩

/-- Why an assignment fails: something in it cannot be lowered, or it is no statement. -/
def Unassignable (c : Catalog) (K : Ctx) (t : Tree) (e : PassError) : Prop :=
  ¬ t.Clean c ∧ e.Fault (¬ K.Headed ∧ ∀ k ∈ t.heads, k.Flat) (Walkable c K.sited [t])

theorem lowerTarget_track {finish : Access → NodeId → NodeId → Lower Unit} {Q : Unit → Workspace Progress → Prop}
    (hl : ∀ a b, (l.kind [a, b] [] []).assigned? = some b) (hl' : l = .assign ∨ ∃ op, l = .augAssign op)
    (h : Has w c st [(none, K.plug (.node i ty l [target, value] [] []))] [] G) (hI : w.store.Tends g m G)
    (hm : (K.plug (.node i ty l [target, value] [] [])).id = m)
    (hstay : target.reach c = none → Q () w)
    (hgo : ∀ w' v σ e₁ value' e₂ ls, target.access? c = some v → K.site? i = some σ →
      Hoisted c G.next [value] e₁ [value'] → Hoisted c G.next (target.links.map Link.key) e₂ (ls.map Link.key) →
      Has w' c (st + { reads := value.refs c + Tree.refsAll c (target.links.map Link.key) })
        [(none, (K.emit (e₁ ++ e₂)).plug (.node i ty l [target.base.wrap ls, value'] [] []))] [] G →
      w'.store.Tends g m G → ((K.emit (e₁ ++ e₂)).plug (.node i ty l [target.base.wrap ls, value'] [] [])).id = m →
      (target.base.wrap ls).reach c = some v →
      Course (Store.Tends g m G) (finish ⟨v, target.id, ls.map Link.id⟩ σ.block value'.id) w' Q
        (PassError.Fault (¬ K.Headed) True)) :
    Track g m G (Unbounded.lowerTarget i target.id finish) (lowerTarget i target.id finish) w Q
      (Unassignable c K (.node i ty l [target, value] [] [])) := by
  have hmain := h.holds
  have hfit := h.fits
  have hnd := h.nodup
  -- the target is in a place of its own
  have hplug : K.plug (.node i ty l [target, value] [] []) =
      Ctx.plug (⟨i, ty, l, .heads, [], [value], [], []⟩ :: K) target :=
    rfl
  have hmain' := hmain
  have hfit' := hfit
  have hnd' := hnd
  rw [hplug] at hmain' hfit' hnd'
  have hdirty (hr : target.reach c ≠ none) : ¬ Tree.Clean c (.node i ty l [target, value] [] []) := fun hc =>
    hr (hc.kid (k := target) (by simp)).reach
  unfold lowerTarget Unbounded.lowerTarget
  rcases (Store.Holds.inside hmain').targetAccess (c := c) (Ctx.fits_of_plug hfit')
    ((Ctx.nodup_plug _ target).1 hnd').2.1 with ⟨hat, hr⟩ | ⟨⟨e, hat⟩, hr, hacc⟩ | ⟨v, hv, hat⟩
  all_goals rw [← h.catalog] at hat
  · exact .ask hat (.pure hI (hstay hr))
  · exact .refused hat hI ⟨hdirty hr, .lowering fun hh => (hh.of_target hl' hr).2.1 hacc⟩
  · have hr : target.reach c ≠ none := by simp [(Tree.access?_eq_some_iff.1 hv).1]
    refine .ask hat ?_
    have hsite : _ = K.site? i := Store.site_plug (a := ⟨v, target.id, target.links.map Link.id⟩)
      hmain' hfit' hnd' rfl
    rcases hq : Access.site ⟨v, target.id, target.links.map Link.id⟩ w.store with e | σ <;> rw [hq] at hsite
    · refine .refused hq hI ⟨hdirty hr, .lowering fun hh => ?_⟩
      have := Ctx.not_sited_of_site? hsite.symm
      simp [(hh.of_target hl' hr).1] at this
    have hσ : K.site? i = some σ := hsite.symm
    refine .ask hq (((lowerOperands_track hl h hI hm hσ).mono (fun _ _ h => h) fun e he =>
      ⟨hdirty hr, he.mono (fun hs => ⟨hs.2 target (by simp), hs.2 value (by simp)⟩)
        fun hh => (hh.of_target hl' hr).2.2⟩).bind ?_)
    rintro _ w₁ ⟨e₁, value', e₂, ls, hval, hls, hids, h₁⟩ hI₁
    have hm₁ : ((K.emit (e₁ ++ e₂)).plug (.node i ty l [target.base.wrap ls, value'] [] [])).id = m := by
      rw [Ctx.id_plug_emit]
      exact (Ctx.id_plug_of_site hσ).trans hm
    refine .job (fun _ => rfl) (h₁.reaches hm₁ (Tree.id_mem_ids _)) fun _ => ?_
    refine Track.node (i := i) (Store.Holds.inside h₁.holds).top ?_
    have hass : (Tree.kind (.node i ty l [target.base.wrap ls, value'] [] [])).assigned? = some value'.id := hl _ _
    simp only [Tree.root_kind, hass]
    rw [← hids]
    have hreach : (target.base.wrap ls).reach c = some v := by
      rw [Tree.reach, Tree.base_wrap (Tree.label_base (Ctx.fits_of_plug hfit'))]
      exact (Tree.access?_eq_some_iff.1 hv).1
    exact .of_course ((hgo w₁ v σ e₁ value' e₂ ls hv hσ hval hls h₁ hI₁ hm₁ hreach).mono (fun _ _ h => h)
      fun e he => ⟨hdirty hr, he.mono And.left fun _ => trivial⟩)

/-! ## The statement is taken out -/

theorem replacementOf?_of_two {s : Store} {j k : NodeId} (hi : s.replacedBy? i = some j)
    (hj : s.replacedBy? j = some k) (hk : s.replacedBy? k = none) : s.replacementOf? i = some k := by
  rw [Store.replacementOf?, hi, Option.map_some, Store.followReplacements, hj]
  cases s.replacements.length <;> simp [Store.followReplacements, hk]

/-- An empty statement takes the place of a statement that refers to storage. -/
theorem vacate_course {t : Tree} {proper able : Prop} (h : Has w c st [(none, K.plug t)] [] G)
    (hI : w.store.Tends g m G) (hm : (K.plug t).id = m) (hσ : K.site? t.id = some σ) (hc : ¬ t.Clean c)
    (hb : t.body = []) (ho : t.orelse = []) (hl : ∀ y, t.label ≠ .name y) :
    Course (Store.Tends g m G) (vacate t.id) w (fun hole w' => w'.own = ⟨c, st⟩ ∧
      w'.store.Bears g [(none, K.plug (.leaf hole none .pass)), (none, t)] [] G ∧ hole ≠ t.id ∧
      w'.store.replacedBy? t.id = some hole ∧ ¬ g.held hole) (PassError.Fault proper able) := by
  have hk := hI.bears h.keeps hm
  have hheld : ¬ g.held t.id := hk.not_held_of_dirty (C := K) (p := none) List.mem_cons_self hc hb ho
  unfold vacate
  refine course_make hI (Edit.insertNew_does hk _ (fun _ => .pass) none (fun _ => rfl) (fun _ => by trivial)
    (fun _ => rfl) (.leaf .pass none) rfl rfl) ?_
  rintro hole w₁ ho₁ ⟨hk₁, -, -, hfree, -⟩
  have hk₁ := hk₁.perm (List.Perm.swap _ _ _) (List.Perm.refl _)
  refine course_edit (hk₁.tends List.mem_cons_self hm) (Edit.replace_does hk₁ rfl rfl hheld hl)
    (fun _ he => by rw [he] at hσ; cases hσ) ?_
  rintro _ w₂ ho₂ ⟨hk₂, hr₂⟩
  have hne : hole ≠ t.id := (hk₁.ne_id (Ctx.id_mem_plug _ _)).symm
  exact .pure (hk₂.tends List.mem_cons_self ((Ctx.id_plug_of_site hσ).trans hm))
    ⟨by rw [ho₂, ho₁, h.own], hk₂, hne, by rw [hr₂, if_pos rfl], hfree⟩

/-- What is left of an assignment to a state variable: its keys and its value are loose, the rest is a string. -/
theorem stripped_assignment {s : Store} (hf : ∀ a b, (l.kind [a, b] [] []).children = [a, b]) (hm : l ≠ .module)
    (h : s.Bears g ((none, .node i ty l [target, value] [] []) :: F) H G) (hv : target.reach c = some v) :
    ∃ n N, s.Bears g (Store.keyForest target.links ++ (some i, value) :: F) (n :: N ++ H) G ∧ n.id = i ∧
      n.parent = none ∧
      ∀ X : List NodeId, value.id ∈ X → (∀ k ∈ target.links, k.key.id ∈ X) → Store.Strung X (n :: N) := by
  have hheld : ¬ g.held i := by
    refine h.not_held_of_dirty (C := []) (t := .node i ty l [target, value] [] []) (p := none) (by simp)
      (fun hc => ?_) rfl rfl
    exact Tree.not_clean_of_reach hv (hc.kid (k := target) (by simp))
  obtain ⟨n, N, hk, hid, hpar, hst⟩ := (h.felled hm hheld).stripped hv
  refine ⟨Tree.root (.node i ty l [target, value] [] []) none, n :: N, hk.perm (List.Perm.refl _) List.perm_middle,
    rfl, rfl, ?_⟩
  intro X hval hkeys
  refine ⟨⟨[value.id], by simpa using hval, ?_⟩, ?_, hst X hkeys⟩
  · show (l.kind [target.id, value.id] [] []).children = _
    rw [hf, ← hid]
    rfl
  · rintro m hm
    obtain rfl := Option.some.inj hm
    exact hpar

/-! ## Statements over loose trees -/

section Statements

variable {s : Store} {p q : Option NodeId} {x y : Tree} {L : Forest}

theorem assign_does (h : s.Bears g ((p, x) :: (q, y) :: F) H G) {a b : NodeId} (ha : x.id = a) (hb : y.id = b) :
    Edit.Does (Build.assign a b) s (fun i s' => s'.Bears g ((none, assignTree i x y) :: F) H G ∧
      s'.replacements = s.replacements) (· = .idsExhausted) := by
  subst ha hb
  exact (Edit.alloc_does (L := [(p, x), (q, y)]) h .assign [x, y] [] [] none rfl rfl (by simp [Label.Fits])
    rfl).mono (fun _ _ h => ⟨h.1, h.2.1⟩) fun _ h => h

theorem binOp_does (h : s.Bears g ((p, x) :: (q, y) :: F) H G) {a b : NodeId} (ha : x.id = a) (hb : y.id = b)
    (op : BinOp) (ty : Option Ty) :
    Edit.Does (Build.binOp a op b ty) s (fun i s' =>
      s'.Bears g ((none, .node i ty (.binOp op) [x, y] [] []) :: F) H G ∧
      s'.replacements = s.replacements) (· = .idsExhausted) := by
  subst ha hb
  exact (Edit.alloc_does (L := [(p, x), (q, y)]) h (.binOp op) [x, y] [] [] ty rfl rfl (by simp [Label.Fits])
    rfl).mono (fun _ _ h => ⟨h.1, h.2.1⟩) fun _ h => h

theorem storageWrite_does {slot : NodeId} (h : s.Bears g ((none, slotLeaf slot v) :: (L ++ (p, x) :: F)) H G)
    {a : NodeId} (ha : x.id = a) :
    Edit.Does (Build.storageWrite slot (L.map fun x => x.2.id) a) s (fun i s' =>
      s'.Bears g ((none, writeTree i slot v x.ty (L.map Prod.snd) x) :: F) H G ∧ s'.replacements = s.replacements ∧
      s'.replacedBy? i = none ∧ ¬ g.held i) (· = .idsExhausted) := by
  subst ha
  have hty : s.ty? x.id = x.ty := (h.holds (p, x) (by simp)).ty?
  refine Edit.Does.of_get ?_
  rw [hty]
  refine (Edit.alloc_does (L := (none, slotLeaf slot v) :: (L ++ [(p, x)])) (by simpa using h) .storageWrite
    (slotLeaf slot v :: (L.map Prod.snd ++ [x])) [] [] x.ty ?_ ?_ ?_ rfl).mono
    (fun _ _ h => ⟨h.1, h.2.1, h.2.2.1, h.2.2.2.1⟩) fun _ h => h
  · simp [Label.kind, slotLeaf, Tree.leaf, Function.comp_def]
  · simp
  · simp [Label.Fits]

end Statements

/-- The empty statement that held the place and what is left of the assignment are discarded. -/
theorem discard_both {T : Tree} {hole : NodeId} {n : Node} {N : List Node} {X : PassError → Prop} (hm : T.id = m)
    (hown : w.own = ⟨c, st⟩) (h : w.store.Bears g [(none, T), (none, .leaf hole none .pass)] (n :: N) G)
    (hhole : ¬ g.held hole) (hn : n.id = i) (hp : n.parent = none) (hst : Store.Strung T.ids (n :: N))
    (f : Stats → Stats) :
    Course (Store.Tends g m G) (do edit (Edit.discard hole); edit (Edit.discard i); count f) w (fun _ w' =>
      Has w' c (f st) [(none, T)] [] G ∧ i ∉ w'.store.ids ∧ w'.store.replacements = w.store.replacements) X := by
  have hk : w.store.Bears g [(none, T)] (Tree.root (.leaf hole none .pass) none :: [] ++ (n :: N)) G :=
    (h.perm (List.Perm.swap _ _ _) (List.Perm.refl _)).felled (by simp [Tree.leaf]) hhole
  refine course_edit (hk.tends List.mem_cons_self hm)
    (Edit.discard_does hk rfl rfl (by simp) ⟨⟨[], by simp, rfl⟩, by simp, trivial⟩ h.sunk) (fun _ he => he.elim) ?_
  rintro _ w₁ ho₁ ⟨hk₁, hr₁, -⟩
  rw [← List.append_nil (n :: N)] at hk₁
  refine course_edit (hk₁.tends List.mem_cons_self hm) (Edit.discard_does hk₁ hn hp (by simp) hst (by simp))
    (fun _ he => he.elim) ?_
  rintro _ w₂ ho₂ ⟨hk₂, hr₂, hgone⟩
  refine course_count (hk₂.tends List.mem_cons_self hm) ⟨⟨?_, hk₂.toKeeps⟩, hn ▸ hgone n List.mem_cons_self,
    hr₂.trans hr₁⟩
  show ({ w₂.own with stats := f w₂.own.stats } : Progress) = _
  rw [ho₂, ho₁, hown]

/-! ## Assignment -/

/-- The value is bound to a temporary, and a write of the temporary takes the place of the assignment. -/
theorem storeValue_course (h : Has w c st [(none, K.plug (.node i ty .assign [target, value] [] []))] [] G)
    (hI : w.store.Tends g m G) (hm : (K.plug (.node i ty .assign [target, value] [] [])).id = m)
    (hσ : K.site? i = some σ) (hv : target.reach c = some v) (top : NodeId) :
    Course (Store.Tends g m G) (storeValue i ⟨v, top, target.links.map Link.id⟩ σ.block value.id) w (fun _ w' =>
      ∃ bind temp slot operand write, G.next ≤ temp ∧ (∃ b O, K = b :: O ∧ b.part ≠ .heads) ∧
      Has w' c (st + { writes := 1 }) [(none, (K.emit [assignTree bind (tempLeaf temp (some v.value)) value]).plug
        (writeTree write slot v (some v.value) (target.links.map Link.key) (tempRef operand temp (some v.value))))]
          [] G ∧
      i ∉ w'.store.ids ∧ w'.store.replacementOf? i = some write)
      (PassError.Fault (¬ K.Headed) True) := by
  have tends : ∀ {w : Workspace Progress} {F : Forest} {H : List Node} (x : Tree), w.store.Bears g F H G →
      (none, K.plug x) ∈ F → w.store.Tends g m G := by
    intro w F H x hk hx
    exact hk.tends hx ((Ctx.id_plug_of_site hσ).trans hm)
  have hdirty : ¬ Tree.Clean c (.node i ty .assign [target, value] [] []) := fun hc =>
    Tree.not_clean_of_reach hv (hc.kid (k := target) (by simp))
  unfold storeValue
  rw [course_store]
  have hkeys := (h.holds.inside.kid (k := target) (by simp)).access_keys
    ((Ctx.fits_of_plug h.fits).kid (by simp)) v top
  rw [hkeys]
  refine (vacate_course h hI hm hσ hdirty rfl rfl (by simp)).bind ?_
  rintro hole w₁ ⟨hc₁, hk₁, hhole, hr₁, hfree⟩ -
  have hswap := hk₁.perm (List.Perm.swap _ _ _) (List.Perm.refl _)
  obtain ⟨n, N, hk₁, hn, hpar, hst⟩ := stripped_assignment (by intros; rfl) (by simp) hswap hv
  rw [List.append_nil] at hk₁
  refine course_make (tends (.leaf hole none .pass) hk₁ (by simp)) (temp_does hk₁ (some v.value)) ?_
  rintro temp w₂ ho₂ ⟨hk₂, hr₂, hle⟩
  refine course_slotName (tends (.leaf hole none .pass) hk₂ (by simp)) hk₂ v PassError.Fault.of_exhausted ?_
  intro slot w₃ ho₃ hk₃ hr₃
  have hk₃ : w₃.store.Bears g ((none, tempLeaf temp (some v.value)) :: (some i, value) ::
      (none, slotLeaf slot v) ::
      (Store.keyForest target.links ++ [(none, K.plug (.leaf hole none .pass))])) (n :: N) G := by
    refine hk₃.reorder fun x => ?_
    simp only [List.count_cons, List.count_append, List.count_nil]
    omega
  refine course_make (tends (.leaf hole none .pass) hk₃ (by simp)) (assign_does hk₃ rfl rfl) ?_
  rintro bind w₄ ho₄ ⟨hk₄, hr₄⟩
  refine course_make (tends (.leaf hole none .pass) hk₄ (by simp)) (name_does hk₄ _ _) ?_
  rintro operand w₅ ho₅ ⟨hk₅, hr₅, -⟩
  have hk₅ : w₅.store.Bears g ((none, slotLeaf slot v) :: (Store.keyForest target.links ++
      (none, tempRef operand temp (some v.value)) ::
        [(none, K.plug (.leaf hole none .pass)), (none, assignTree bind (tempLeaf temp (some v.value)) value)]))
          (n :: N) G := by
    refine hk₅.reorder fun x => ?_
    simp only [tempRef, List.count_cons, List.count_append, List.count_nil]
    omega
  refine course_make (tends (.leaf hole none .pass) hk₅ (by simp)) (storageWrite_does hk₅ rfl) ?_
  rintro write w₆ ho₆ ⟨hk₆, hr₆, hw₆, hnew⟩
  rw [Store.map_snd_keyForest] at hk₆
  -- the write takes the place, and the binding goes in front of it
  have hk₆ := hk₆.perm (List.Perm.swap _ _ _) (List.Perm.refl _)
  have hne : write ≠ hole := (hk₆.ne_id (i := hole) (Ctx.id_mem_plug _ _)).symm
  refine course_edit (tends (.leaf hole none .pass) hk₆ List.mem_cons_self)
    (Edit.replace_does hk₆ rfl rfl hfree (by simp [Tree.leaf])) (fun _ he => by rw [he] at hσ; cases hσ) ?_
  rintro _ w₇ ho₇ ⟨hk₇, hr₇⟩
  have hk₇ := hk₇.perm (List.Perm.cons _ (List.Perm.swap _ _ _)) (List.Perm.refl _)
  generalize hwr : writeTree write slot v (tempRef operand temp (some v.value)).ty (target.links.map Link.key)
    (tempRef operand temp (some v.value)) = wr at hk₇
  have hwrid : wr.id = write := by
    rw [← hwr]
    rfl
  refine course_edit (tends wr hk₇ List.mem_cons_self)
    (Edit.insertBefore_self_does hk₇ rfl hwrid (Ctx.hasBlock_of_site? hσ) (by rwa [hwrid])) ?_ ?_
  · rintro _ ⟨rfl, hno⟩
    exact .anchor fun hh => hno (Ctx.exists_block_of_not_headed hσ hh)
  rintro _ w₈ ho₈ ⟨⟨b, O, hK, hb, -⟩, hk₈, hr₈⟩
  have hmem : value.id ∈ ((K.emit [assignTree bind (tempLeaf temp (some v.value)) value]).plug wr).ids := by
    refine Ctx.mem_ids_emit hσ List.mem_cons_self ?_
    simp [assignTree, Tree.ids, Tree.idsAll, value.id_mem_ids]
  have hmemKeys : ∀ k ∈ target.links,
      k.key.id ∈ ((K.emit [assignTree bind (tempLeaf temp (some v.value)) value]).plug wr).ids := by
    intro k hk
    refine (Ctx.mem_ids_plug _ _ _).2 (.inr ?_)
    rw [← hwr, Tree.ids_eq]
    refine List.mem_cons_of_mem _ (List.mem_flatMap.2 ⟨k.key, ?_, k.key.id_mem_ids⟩)
    simpa [writeTree] using .inr (.inl ⟨k, hk, rfl⟩)
  have hc₈ : w₈.own = ⟨c, st⟩ := by rw [ho₈, ho₇, ho₆, ho₅, ho₄, ho₃, ho₂, hc₁]
  have hm₈ : ((K.emit [assignTree bind (tempLeaf temp (some v.value)) value]).plug wr).id = m := by
    rw [Ctx.id_plug_emit]
    exact (Ctx.id_plug_of_site hσ).trans hm
  refine (discard_both hm₈ hc₈ hk₈ hfree hn hpar (hst _ hmem hmemKeys) _).mono ?_ fun _ h => h
  rintro _ w₉ ⟨h₉, hgone, hr₉⟩
  refine ⟨bind, temp, slot, operand, write, hle, ⟨b, O, hK, hb⟩, hwr ▸ h₉, hgone, ?_⟩
  have hrep : ∀ j, w₉.store.replacedBy? j = if j = hole then some write else w₆.store.replacedBy? j := by
    intro j
    rw [← hr₇]
    simp only [Store.replacedBy?, hr₉, hr₈]
  have hrep₁ : ∀ j, w₆.store.replacedBy? j = w₁.store.replacedBy? j := by
    intro j
    simp only [Store.replacedBy?, hr₆, hr₅, hr₄, hr₃, hr₂]
  refine replacementOf?_of_two (j := hole) ?_ ?_ ?_
  · rw [hrep, if_neg (show i ≠ hole from hhole.symm), hrep₁]
    exact hr₁
  · rw [hrep, if_pos rfl]
  · rw [hrep, if_neg hne, hw₆]

/-- The pass at an assignment: a target that does not reach a state variable is left alone. -/
theorem lowerAssign_track {t : Tree} (hl : t.label = .assign) (h : Has w c st [(none, K.plug t)] [] G)
    (hI : w.store.Tends g m G) (hm : (K.plug t).id = m) :
    Track g m G (Unbounded.visit .assign t.id m) (lowerAssign t.id) w (fun _ w' =>
      (w' = w ∧ ∀ target ∈ t.heads.head?, target.reach c = none) ∨
      ∃ es t', Stored c G.next t es t' ∧ K.InBlock ∧
        Has w' c (st + t.charge c) [(none, (K.emit es).plug t')] [] G ∧ t.id ∉ w'.store.ids ∧
        w'.store.replacementOf? t.id = some t'.id)
      (Unassignable c K t) := by
  obtain ⟨target, value, ht⟩ := (Ctx.fits_of_plug h.fits).two_heads
    (by rw [hl]; exact fun _ _ _ h => h)
  rw [hl] at ht
  generalize t.id = i, t.ty = ty at ht
  subst ht
  rw [lowerAssign_eq]
  refine Track.node (i := i) h.holds.inside.top ?_
  refine lowerTarget_track (fun _ _ => rfl) (.inl rfl) h hI hm ?_ ?_
  · intro hreach
    exact .inl ⟨rfl, by simpa using hreach⟩
  · intro w₁ v σ e₁ value' e₂ ls hv hσ hval hls h₁ hI₁ hm₁ hreach
    have hft : target.Fits := (Ctx.fits_of_plug h.fits).kid (by simp)
    have hlb := Tree.label_base hft
    have hstore := storeValue_course h₁ hI₁ hm₁ (by rw [Ctx.site?_emit, hσ]) hreach target.id
    rw [Tree.links_wrap hlb] at hstore
    refine hstore.mono ?_ fun e he => by simpa using he
    rintro _ w₂ ⟨bind, temp, slot, operand, write, hle, hK, h₂, hgone, hrep⟩
    rw [Ctx.emit_emit, Stats.add_assoc] at h₂
    refine .inr ⟨_, _, .mk bind temp slot operand write hle hv hval hls, Ctx.inBlock_of_emit hσ hK, ?_,
      hgone, hrep⟩
    rw [Tree.charge_of_target hft (.inl rfl) (Tree.access?_eq_some_iff.1 hv).1, if_pos rfl]
    exact h₂

/-! ## Augmented assignment -/

theorem exists_leaf_of_isAtom {k : Tree} (hf : k.Fits) (h : k.kind.isAtom = true) :
    k = .leaf k.id k.ty k.label ∧ (k.label.kind [] [] []).isAtom = true := by
  have hl := hf.label_kind
  have hfit := ((Tree.fits_iff k).1 hf).1
  obtain ⟨i, ty, l, hs, bs, os⟩ := k
  obtain ⟨rfl, rfl, rfl⟩ : hs = [] ∧ bs = [] ∧ os = [] := by
    cases hk : Tree.kind (.node i ty l hs bs os) <;> rw [hk] at h hl <;>
      simp only [Kind.isAtom, Bool.false_eq_true] at h <;>
      obtain rfl := hl <;> simpa [Kind.label, Label.Fits] using hfit
  exact ⟨rfl, h⟩

/-- An atom is copied as a leaf. -/
theorem deepCopy_atom_does {s : Store} {k : Tree} {p : Option NodeId} (h : s.Bears g ((p, k) :: F) H G)
    (hk : k.kind.isAtom = true) {key : NodeId} (hkey : k.id = key) :
    Edit.Does (Edit.deepCopy key) s (fun i s' => s'.Bears g ((none, .leaf i k.ty k.label) :: (p, k) :: F) H G ∧
      s'.replacements = s.replacements ∧ G.next ≤ i) (· = .idsExhausted) := by
  subst hkey
  have hf : k.Fits := h.fits _ List.mem_cons_self
  obtain ⟨hleaf, hatom⟩ := exists_leaf_of_isAtom hf hk
  have hkind : k.kind = k.label.kind [] [] [] := by rw [hleaf]; rfl
  have hch : k.kind.children = [] := by
    rw [hf.children_kind, hleaf]
    rfl
  have hfit := ((Tree.fits_iff k).1 hf).1
  rw [hleaf] at hfit
  have hdecl : k.label.isScope = false := by
    cases hl : k.label <;> rw [hl] at hatom <;> first | rfl | cases hatom
  have halloc := Edit.alloc_does (L := []) (F := (p, k) :: F) h k.label [] [] [] k.ty hkind rfl hfit hdecl
  have hcopy := Edit.deepCopy_eq_alloc (h.holds _ List.mem_cons_self).top hch
  exact (halloc.congr hcopy).mono (fun _ _ h => ⟨h.1, h.2.1, h.2.2.2.2⟩) fun _ h => h

/-- One key is made into two. -/
theorem shareKey_course {k : Tree} {q : Option NodeId} {hole key : NodeId}
    (h : w.store.Bears g ((q, k) :: (none, K.plug (.leaf hole none .pass)) :: F) H G)
    (hm : (K.plug (.leaf hole none .pass)).id = m) (hhole : ¬ g.held hole) (hσ : K.site? i = some σ)
    (hkey : k.id = key) :
    Course (Store.Tends g m G) (shareKey hole σ.block key) w (fun r w' => ∃ bs rd wr q', Shared G.next k bs rd wr ∧
      r = (rd.id, wr.id) ∧ w'.own = w.own ∧ w'.store.replacements = w.store.replacements ∧
      w'.store.Bears g ((q', rd) :: (none, wr) :: (none, (K.emit bs).plug (.leaf hole none .pass)) :: F) H G)
      (PassError.Fault (¬ K.Headed) True) := by
  have tends : ∀ {w : Workspace Progress} {F : Forest} {H : List Node}, w.store.Bears g F H G →
      (none, K.plug (.leaf hole none .pass)) ∈ F → w.store.Tends g m G := fun hk hx => hk.tends hx hm
  have hholds := h.holds _ List.mem_cons_self
  have hf : k.Fits := h.fits _ List.mem_cons_self
  have hkind : w.store.kind? key = some k.kind := hkey ▸ hholds.kind?
  unfold shareKey
  rw [course_store, hkind, Option.any_some]
  cases hatom : k.kind.isAtom with
  | true =>
    rw [if_pos rfl]
    refine course_make (tends h (by simp)) (deepCopy_atom_does h hatom hkey) ?_
    rintro copy w₁ ho₁ ⟨hk₁, hr₁, hle⟩
    obtain ⟨hleaf, hl⟩ := exists_leaf_of_isAtom hf hatom
    refine .pure (tends hk₁ (by simp)) ⟨[], k, .leaf copy k.ty k.label, q, ?_, ?_, ho₁, hr₁, ?_⟩
    · have : Shared G.next (.leaf k.id k.ty k.label) [] (.leaf k.id k.ty k.label) _ := .atom copy hle hl
      rwa [← hleaf] at this
    · rw [← hkey]
      rfl
    · rw [Ctx.emit_nil]
      exact hk₁.perm (List.Perm.swap _ _ _) (List.Perm.refl _)
  | false =>
    have hty : w.store.ty? key = k.ty := hkey ▸ hholds.ty?
    rw [if_neg (by simp), hty]
    refine course_make (tends h (by simp)) (temp_does h k.ty) ?_
    rintro held w₁ ho₁ ⟨hk₁, hr₁, hle⟩
    refine course_make (tends hk₁ (by simp)) (assign_does hk₁ rfl hkey) ?_
    rintro bind w₂ ho₂ ⟨hk₂, hr₂⟩
    refine course_make (tends hk₂ (by simp)) (name_does hk₂ _ _) ?_
    rintro forRead w₃ ho₃ ⟨hk₃, hr₃, -⟩
    refine course_make (tends hk₃ (by simp)) (name_does hk₃ _ _) ?_
    rintro forWrite w₄ ho₄ ⟨hk₄, hr₄, -, -, hle₄⟩
    have hk₄ : w₄.store.Bears g ((none, K.plug (.leaf hole none .pass)) ::
        (none, assignTree bind (tempLeaf held k.ty) k) ::
        (none, tempRef forRead held k.ty) :: (none, tempRef forWrite held k.ty) :: F) H G := by
      refine hk₄.reorder fun x => ?_
      simp only [tempRef, List.count_cons]
      omega
    refine course_edit (tends hk₄ (by simp))
      (Edit.insertBefore_self_does hk₄ rfl rfl (Ctx.hasBlock_of_site? hσ) hhole) ?_ ?_
    · rintro _ ⟨rfl, hno⟩
      exact .anchor fun hh => hno (Ctx.exists_block_of_not_headed hσ hh)
    rintro _ w₅ ho₅ ⟨-, hk₅, hr₅⟩
    refine .pure (hk₅.tends List.mem_cons_self (by rwa [Ctx.id_plug_emit]))
      ⟨[assignTree bind (tempLeaf held k.ty) k],
      tempRef forRead held k.ty, tempRef forWrite held k.ty, none, ?_, rfl, ?_, ?_, ?_⟩
    · exact .bound bind held forRead forWrite ⟨hle, hle₄⟩ hatom
    · rw [ho₅, ho₄, ho₃, ho₂, ho₁]
    · rw [hr₅, hr₄, hr₃, hr₂, hr₁]
    · refine hk₅.reorder fun x => ?_
      simp only [List.count_cons]
      omega

/-- All keys are made into two. -/
theorem mapM_shareKey_course {hole : NodeId} (L : Forest)
    (h : w.store.Bears g (L ++ (none, K.plug (.leaf hole none .pass)) :: F) H G)
    (hm : (K.plug (.leaf hole none .pass)).id = m) (hhole : ¬ g.held hole) (hσ : K.site? i = some σ) :
    Course (Store.Tends g m G) ((L.map fun x => x.2.id).mapM (shareKey hole σ.block)) w (fun r w' => ∃ bs R W,
      SharedAll G.next (L.map Prod.snd) bs (R.map Prod.snd) (W.map Prod.snd) ∧
      r.map Prod.fst = R.map (fun x => x.2.id) ∧ r.map Prod.snd = W.map (fun x => x.2.id) ∧
      w'.own = w.own ∧ w'.store.replacements = w.store.replacements ∧
      w'.store.Bears g ((none, (K.emit bs).plug (.leaf hole none .pass)) :: (R ++ (W ++ F))) H G)
      (PassError.Fault (¬ K.Headed) True) := by
  induction L generalizing w K F with
  | nil => exact .pure (h.tends (by simp) hm) ⟨[], [], [], .nil, rfl, rfl, rfl, rfl, by simpa using h⟩
  | cons x L ih =>
    obtain ⟨q, k⟩ := x
    rw [List.map_cons, List.mapM_cons]
    have h₀ : w.store.Bears g ((q, k) :: (none, K.plug (.leaf hole none .pass)) :: (L ++ F)) H G := by
      refine h.reorder fun x => ?_
      simp only [List.count_cons, List.count_append]
      omega
    refine (shareKey_course h₀ hm hhole hσ rfl).bind ?_
    rintro _ w₁ ⟨bs, rd, wr, q', hsh, rfl, ho₁, hr₁, hk₁⟩ -
    have hk₁ : w₁.store.Bears g (L ++ (none, (K.emit bs).plug (.leaf hole none .pass)) ::
        ((q', rd) :: (none, wr) :: F)) H G := by
      refine hk₁.reorder fun x => ?_
      simp only [List.count_cons, List.count_append]
      omega
    refine ((ih hk₁ (by rwa [Ctx.id_plug_emit]) (by rw [Ctx.site?_emit]; exact hσ)).mono (fun _ _ h => h)
      fun e he => by simpa using he).bind ?_
    rintro r w₂ ⟨bs', R, W, hall, hR, hW, ho₂, hr₂, hk₂⟩ hI₂
    refine .pure hI₂ ⟨bs ++ bs', (q', rd) :: R, (none, wr) :: W, .cons hsh hall, ?_, ?_, ho₂.trans ho₁,
      hr₂.trans hr₁, ?_⟩
    · simp [hR]
    · simp [hW]
    · rw [Ctx.emit_emit] at hk₂
      refine hk₂.reorder fun x => ?_
      simp only [List.count_cons, List.count_append]
      omega

/-- The slot is read, the combination is bound to a temporary, and a write of it takes the place of the statement.
-/
theorem combineValue_course {op : BinOp}
    (h : Has w c st [(none, K.plug (.node i ty (.augAssign op) [target, value] [] []))] [] G)
    (hI : w.store.Tends g m G) (hm : (K.plug (.node i ty (.augAssign op) [target, value] [] [])).id = m)
    (hσ : K.site? i = some σ) (hv : target.reach c = some v) (top : NodeId) :
    Course (Store.Tends g m G) (combineValue i ⟨v, top, target.links.map Link.id⟩ op σ.block value.id) w
      (fun _ w' =>
      ∃ bs rs ws current combined readSlot writeSlot read currentRef combination compute combinedRef write,
      (G.next ≤ current ∧ G.next ≤ combined) ∧ SharedAll G.next (target.links.map Link.key) bs rs ws ∧
      (∃ es b O, K.emit es = b :: O ∧ b.part ≠ .heads) ∧
      Has w' c (st + { augWrites := 1 })
          [(none, (K.emit (bs ++ [readTree read current readSlot v (some v.value) rs,
          assignTree compute (tempLeaf combined (some v.value))
            (.node combination (some v.value) (.binOp op) [tempRef currentRef current (some v.value), value] []
              [])])).plug
        (writeTree write writeSlot v (some v.value) ws (tempRef combinedRef combined (some v.value))))] [] G ∧
      i ∉ w'.store.ids ∧ w'.store.replacementOf? i = some write)
      (PassError.Fault (¬ K.Headed) True) := by
  have hid : ∀ (es : List Tree) (x : Tree), ((K.emit es).plug x).id = m := by
    intro es x
    rw [Ctx.id_plug_emit]
    exact (Ctx.id_plug_of_site hσ).trans hm
  have tends : ∀ {w : Workspace Progress} {F : Forest} {H : List Node} (es : List Tree) (x : Tree),
      w.store.Bears g F H G →
      (none, (K.emit es).plug x) ∈ F → w.store.Tends g m G := fun es x hk hx => hk.tends hx (hid es x)
  have hdirty : ¬ Tree.Clean c (.node i ty (.augAssign op) [target, value] [] []) := fun hc =>
    Tree.not_clean_of_reach hv (hc.kid (k := target) (by simp))
  unfold combineValue
  rw [course_store]
  have hkeys := (h.holds.inside.kid (k := target) (by simp)).access_keys
    ((Ctx.fits_of_plug h.fits).kid (by simp)) v top
  rw [hkeys]
  refine (vacate_course h hI hm hσ hdirty rfl rfl (by simp)).bind ?_
  rintro hole w₁ ⟨hc₁, hk₁, hhole, hr₁, hfree⟩ -
  have hswap := hk₁.perm (List.Perm.swap _ _ _) (List.Perm.refl _)
  obtain ⟨n, N, hk₁, hn, hpar, hst⟩ := stripped_assignment (by intros; rfl) (by simp) hswap hv
  rw [List.append_nil] at hk₁
  have hk₁ : w₁.store.Bears g (Store.keyForest target.links ++ (none, K.plug (.leaf hole none .pass)) ::
      [(some i, value)]) (n :: N) G := hk₁.perm ((List.Perm.swap _ _ _).append_left _) (List.Perm.refl _)
  refine (mapM_shareKey_course _ hk₁ ((Ctx.id_plug_of_site hσ).trans hm) hfree hσ).bind ?_
  rintro shared w₂ ⟨bs, R, W, hall, hR, hW, ho₂, hr₂, hk₂⟩ -
  rw [Store.map_snd_keyForest] at hall
  rw [hR, hW]
  generalize hhl : Tree.leaf hole none .pass = hl at hk₂
  -- temporaries and names of the slot
  refine course_make (tends bs hl hk₂ (by simp)) (temp_does hk₂ (some v.value)) ?_
  rintro current w₃ ho₃ ⟨hk₃, hr₃, hle₃⟩
  refine course_make (tends bs hl hk₃ (by simp)) (temp_does hk₃ (some v.value)) ?_
  rintro combined w₄ ho₄ ⟨hk₄, hr₄, hle₄⟩
  refine course_slotName (tends bs hl hk₄ (by simp)) hk₄ v PassError.Fault.of_exhausted ?_
  intro readSlot w₅ ho₅ hk₅ hr₅
  refine course_slotName (tends bs hl hk₅ (by simp)) hk₅ v PassError.Fault.of_exhausted ?_
  intro writeSlot w₆ ho₆ hk₆ hr₆
  have hk₆ : w₆.store.Bears g ((none, tempLeaf current (some v.value)) :: (none, slotLeaf readSlot v) :: R ++
      ((none, (K.emit bs).plug hl) :: (none, slotLeaf writeSlot v) :: (none, tempLeaf combined (some v.value)) ::
        (some i, value) :: W)) (n :: N) G := by
    refine hk₆.reorder fun x => ?_
    simp only [List.count_cons, List.count_append, List.count_nil]
    omega
  -- the read, and the combination
  refine course_make (tends bs hl hk₆ (by simp)) (storageRead_does hk₆) ?_
  rintro read w₇ ho₇ ⟨hk₇, hr₇⟩
  refine course_make (tends bs hl hk₇ (by simp)) (name_does hk₇ _ _) ?_
  rintro currentRef w₈ ho₈ ⟨hk₈, hr₈, -⟩
  generalize hrd : readTree read current readSlot v (some v.value) (R.map Prod.snd) = rd at hk₈
  have hk₈ : w₈.store.Bears g ((none, tempRef currentRef current (some v.value)) :: (some i, value) ::
      (none, tempLeaf combined (some v.value)) :: (none, (K.emit bs).plug hl) :: (none, rd) ::
      (none, slotLeaf writeSlot v) :: W) (n :: N) G := by
    refine hk₈.reorder fun x => ?_
    simp only [tempRef, List.count_cons]
    omega
  refine course_make (tends bs hl hk₈ (by simp)) (binOp_does hk₈ rfl rfl op (some v.value)) ?_
  rintro combination w₉ ho₉ ⟨hk₉, hr₉⟩
  have hk₉ := hk₉.perm (List.Perm.swap _ _ _) (List.Perm.refl _)
  refine course_make (tends bs hl hk₉ (by simp)) (assign_does hk₉ rfl rfl) ?_
  rintro compute w₁₀ ho₁₀ ⟨hk₁₀, hr₁₀⟩
  generalize hcp : assignTree compute (tempLeaf combined (some v.value))
    (.node combination (some v.value) (.binOp op)
    [tempRef currentRef current (some v.value), value] [] []) = cp at hk₁₀
  refine course_make (tends bs hl hk₁₀ (by simp)) (name_does hk₁₀ _ _) ?_
  rintro combinedRef w₁₁ ho₁₁ ⟨hk₁₁, hr₁₁, -⟩
  have hk₁₁ : w₁₁.store.Bears g ((none, slotLeaf writeSlot v) ::
      (W ++ (none, tempRef combinedRef combined (some v.value)) ::
      [(none, (K.emit bs).plug hl), (none, rd), (none, cp)])) (n :: N) G := by
    refine hk₁₁.reorder fun x => ?_
    simp only [tempRef, List.count_cons, List.count_append, List.count_nil]
    omega
  refine course_make (tends bs hl hk₁₁ (by simp)) (storageWrite_does hk₁₁ rfl) ?_
  rintro write w₁₂ ho₁₂ ⟨hk₁₂, hr₁₂, hw₁₂, -⟩
  generalize hwr : writeTree write writeSlot v (tempRef combinedRef combined (some v.value)).ty (W.map Prod.snd)
    (tempRef combinedRef combined (some v.value)) = wr at hk₁₂
  have hrdid : rd.id = read := by rw [← hrd]; rfl
  have hcpid : cp.id = compute := by rw [← hcp]; rfl
  have hwrid : wr.id = write := by rw [← hwr]; rfl
  have hhlid : hl.id = hole := by rw [← hhl]; rfl
  -- the read and the binding go in front, and the write takes the place
  have hk₁₂ : w₁₂.store.Bears g [(none, (K.emit bs).plug hl), (none, rd), (none, cp), (none, wr)] (n :: N) G := by
    refine hk₁₂.reorder fun x => ?_
    simp only [List.count_cons]
    omega
  have hsite : ∀ es, (K.emit es).site? i = some σ := fun es => by rw [Ctx.site?_emit, hσ]
  have hfree : ¬ g.held hl.id := by rwa [hhlid]
  refine course_edit (tends bs hl hk₁₂ (by simp))
    (Edit.insertBefore_self_does hk₁₂ hrdid hhlid (Ctx.hasBlock_of_site? (hsite bs)) hfree) ?_ ?_
  · rintro _ ⟨rfl, hno⟩
    exact .anchor fun hh => hno (Ctx.exists_block_of_not_headed (hsite bs) (by simpa using hh))
  rintro _ w₁₃ ho₁₃ ⟨⟨b, O, hK, hb, -⟩, hk₁₃, hr₁₃⟩
  rw [Ctx.emit_emit] at hk₁₃
  refine course_edit (tends (bs ++ [rd]) hl hk₁₃ (by simp))
    (Edit.insertBefore_self_does hk₁₃ hcpid hhlid (Ctx.hasBlock_of_site? (hsite (bs ++ [rd]))) hfree) ?_ ?_
  · rintro _ ⟨rfl, hno⟩
    exact .anchor fun hh => hno (Ctx.exists_block_of_not_headed (hsite (bs ++ [rd])) (by simpa using hh))
  rintro _ w₁₄ ho₁₄ ⟨-, hk₁₄, hr₁₄⟩
  rw [Ctx.emit_emit, List.append_assoc] at hk₁₄
  have hne : write ≠ hole := by
    rw [← hwrid, ← hhlid]
    exact (hk₁₄.ne_id (Ctx.id_mem_plug _ _)).symm
  refine course_edit (tends (bs ++ ([rd] ++ [cp])) hl hk₁₄ (by simp))
    (Edit.replace_does hk₁₄ hhlid hwrid hfree (by simp [← hhl, Tree.leaf])) (fun _ he => ?_) ?_
  · have := hsite (bs ++ ([rd] ++ [cp]))
    rw [he] at this
    cases this
  rintro _ w₁₅ ho₁₅ ⟨hk₁₅, hr₁₅⟩
  rw [← hhl] at hk₁₅
  have hc₁₅ : w₁₅.own = ⟨c, st⟩ := by
    rw [ho₁₅, ho₁₄, ho₁₃, ho₁₂, ho₁₁, ho₁₀, ho₉, ho₈, ho₇, ho₆, ho₅, ho₄, ho₃, ho₂, hc₁]
  have hemit : ∀ e ∈ bs ++ ([rd] ++ [cp]), ∀ j ∈ e.ids, j ∈ ((K.emit (bs ++ ([rd] ++ [cp]))).plug wr).ids :=
    fun e he j hj => Ctx.mem_ids_emit hσ he hj
  have hmem : value.id ∈ ((K.emit (bs ++ ([rd] ++ [cp]))).plug wr).ids := by
    refine hemit cp (by simp) _ ?_
    rw [← hcp]
    simp [assignTree, Tree.ids, Tree.idsAll, value.id_mem_ids]
  have hmemKeys : ∀ k ∈ target.links, k.key.id ∈ ((K.emit (bs ++ ([rd] ++ [cp]))).plug wr).ids := by
    intro k hk
    rcases hall.mem_ids (List.mem_map_of_mem hk) with ⟨b, hb, hi⟩ | ⟨r, hr, hi⟩
    · exact hemit b (List.mem_append_left _ hb) _ hi
    · refine hemit rd (by simp) _ ?_
      rw [← hrd, Tree.ids_eq]
      refine List.mem_cons_of_mem _ (List.mem_flatMap.2 ⟨r, ?_, hi⟩)
      simpa [readTree] using .inr (.inr (by simpa using hr))
  refine (discard_both (hid _ _) hc₁₅ hk₁₅ (hhlid ▸ hfree) hn hpar (hst _ hmem hmemKeys) _).mono ?_ fun _ h => h
  rintro _ w₁₆ ⟨h₁₆, hgone, hr₁₆⟩
  refine ⟨bs, R.map Prod.snd, W.map Prod.snd, current, combined, readSlot, writeSlot, read, currentRef,
    combination, compute, combinedRef, write, ⟨hle₃, hle₄⟩, hall, ⟨bs, b, O, hK, hb⟩, ?_, hgone, ?_⟩
  · rw [hrd, hcp]
    exact hwr ▸ h₁₆
  · have hrep : ∀ j, w₁₆.store.replacedBy? j = if j = hole then some write else w₁₄.store.replacedBy? j := by
      intro j
      rw [← hr₁₅]
      simp only [Store.replacedBy?, hr₁₆]
    have hrep₁₂ : ∀ j, w₁₄.store.replacedBy? j = w₁₂.store.replacedBy? j := by
      intro j
      simp only [Store.replacedBy?, hr₁₄, hr₁₃]
    have hrep₁ : ∀ j, w₁₂.store.replacedBy? j = w₁.store.replacedBy? j := by
      intro j
      simp only [Store.replacedBy?, hr₁₂, hr₁₁, hr₁₀, hr₉, hr₈, hr₇, hr₆, hr₅, hr₄, hr₃, hr₂]
    refine replacementOf?_of_two (j := hole) ?_ ?_ ?_
    · rw [hrep, if_neg (show i ≠ hole from hhole.symm), hrep₁₂, hrep₁]
      exact hr₁
    · rw [hrep, if_pos rfl]
    · rw [hrep, if_neg hne, hrep₁₂, hw₁₂]

/-- The pass at an augmented assignment. -/
theorem lowerAugAssign_track {t : Tree} {op : BinOp} (hl : t.label = .augAssign op)
    (h : Has w c st [(none, K.plug t)] [] G) (hI : w.store.Tends g m G) (hm : (K.plug t).id = m) :
    Track g m G (Unbounded.visit .augAssign t.id m) (lowerAugAssign t.id) w (fun _ w' =>
      (w' = w ∧ ∀ target ∈ t.heads.head?, target.reach c = none) ∨
      ∃ es t', Combined c G.next t es t' ∧ K.InBlock ∧
        Has w' c (st + t.charge c) [(none, (K.emit es).plug t')] [] G ∧ t.id ∉ w'.store.ids ∧
        w'.store.replacementOf? t.id = some t'.id)
      (Unassignable c K t) := by
  obtain ⟨target, value, ht⟩ := (Ctx.fits_of_plug h.fits).two_heads
    (by rw [hl]; exact fun _ _ _ h => h)
  rw [hl] at ht
  generalize t.id = i, t.ty = ty at ht
  subst ht
  rw [lowerAugAssign_eq]
  refine Track.node (i := i) h.holds.inside.top ?_
  refine lowerTarget_track (fun _ _ => rfl) (.inr ⟨op, rfl⟩) h hI hm ?_ ?_
  · intro hreach
    exact .inl ⟨rfl, by simpa using hreach⟩
  · intro w₁ v σ e₁ value' e₂ ls hv hσ hval hls h₁ hI₁ hm₁ hreach
    have hft : target.Fits := (Ctx.fits_of_plug h.fits).kid (by simp)
    have hlb := Tree.label_base hft
    have hcombine := combineValue_course h₁ hI₁ hm₁ (by rw [Ctx.site?_emit, hσ]) hreach target.id
    rw [Tree.links_wrap hlb] at hcombine
    refine hcombine.mono ?_ fun e he => by simpa using he
    rintro _ w₂ ⟨bs, rs, ws, current, combined, readSlot, writeSlot, read, currentRef, combination, compute,
      combinedRef, write, hle, hsh, ⟨es, b, O, hK, hb⟩, h₂, hgone, hrep⟩
    rw [Ctx.emit_emit, ← List.append_assoc, Stats.add_assoc] at h₂
    rw [Ctx.emit_emit] at hK
    refine .inr ⟨_, _,
      .mk current combined readSlot writeSlot read currentRef combination compute combinedRef write hle
      hv hval hls hsh, Ctx.inBlock_of_emit hσ ⟨b, O, hK, hb⟩, ?_, hgone, hrep⟩
    rw [Tree.charge_of_target hft (.inr ⟨op, rfl⟩) (Tree.access?_eq_some_iff.1 hv).1, if_neg (by simp)]
    exact h₂

end Lower

end ContractTree
