import ContractTree.Proofs.Unbounded

/-!
How reads are lowered in a store. `Lower.hoist` takes one access out of the tree of the module and puts what
`Hoisted` says in its place and in front of its statement; `Lower.readsBelow` does so with the first access below a
node until none is left, and counts one read for each reference to storage. Every store on the way keeps a guarded
forest with the tree of the module in it, and a failure is one that `PassError.Fault` names. The jobs of the loop
without bounds do the same, so that all of it is said of a `Track`.
-/

namespace ContractTree

open Lowering (Progress Stats)

/-- Reads are counted one by one. -/
theorem Lowering.Stats.add_reads (st : Stats) (a b : Nat) :
    st + { reads := a } + { reads := b } = st + { reads := a + b } := by
  simp [Stats.add_def, Nat.add_assoc]

namespace Lower

variable {β : Type} {w : Workspace Progress} {c : Catalog} {g : Guard c} {st : Stats} {F : Forest} {H : List Node}
  {G : Outside} {m : NodeId}

/-! ## Leaves -/

section Leaves

variable {s : Store}

theorem temp_does (h : s.Bears g F H G) (ty : Option Ty) :
    Edit.Does (Edit.temp ty) s (fun i s' => s'.Bears g ((none, tempLeaf i ty) :: F) H G ∧
      s'.replacements = s.replacements ∧ G.next ≤ i) (· = .idsExhausted) :=
  (Edit.insertNew_does h _ (fun i => .name (tempName i)) ty (fun _ => rfl) (fun _ => by trivial) (fun _ => rfl)
    (.temp ty)
    rfl rfl).mono (fun _ _ h => ⟨h.1, h.2.1, h.2.2.2.2⟩) fun _ h => h

theorem name_does (h : s.Bears g F H G) (x : String) (ty : Option Ty) :
    Edit.Does (Build.name x ty) s (fun i s' => s'.Bears g ((none, .leaf i ty (.name x)) :: F) H G ∧
      s'.replacements = s.replacements ∧ s'.replacedBy? i = none ∧ ¬ g.held i ∧ G.next ≤ i) (· = .idsExhausted) :=
  Edit.insertNew_does h _ (fun _ => .name x) ty (fun _ => rfl) (fun _ => by trivial) (fun _ => rfl)
    (.leaf (.name x) ty) rfl
    rfl

theorem course_slotName {I : Store → Prop} {f : NodeId → Lower β} {R : β → Workspace Progress → Prop}
    {X : PassError → Prop} (hI : I w.store) (h : w.store.Bears g F H G) (v : StorageVar)
    (hX : ∀ cause, cause = .idsExhausted → X (.structural cause))
    (hf : ∀ i w', w'.own = w.own → w'.store.Bears g ((none, slotLeaf i v) :: F) H G →
      w'.store.replacements = w.store.replacements → Course I (f i) w' R X) :
    Course I (slotName v >>= f) w R X :=
  course_edit hI (name_does h v.slotName (some v.slotTy)) hX fun i w' ho hk => hf i w' ho hk.1 hk.2.1

end Leaves

/-! ## The keys of an access -/

/-- What lowering the reads in a key does: `lowerKey`, called on a subscript whose key is one of `A`, lowers the
key for the site. -/
def LowersKeys (g : Guard c) (m : NodeId) (G : Outside) (σ : Site) (A : Tree → Prop)
    (lowerKey : NodeId → Lower Unit) : Prop :=
  ∀ (w : Workspace Progress) (st : Stats) (K D : Ctx) (l : Link) (b : Tree),
    Has w c st [(none, K.plug (D.plug ((l.keyFrame b).plug [l.key])))] [] G → w.store.Tends g m G →
    (K.plug (D.plug ((l.keyFrame b).plug [l.key]))).id = m →
    K.site? (D.plug ((l.keyFrame b).plug [l.key])).id = some σ → A l.key →
    Track g m G (pure [.reads σ Kind.slice? l.id]) (lowerKey l.id) w
      (fun _ w' => ∃ es k, Hoisted c G.next [l.key] es [k] ∧
      Has w' c (st + { reads := l.key.refs c }) [(none, (K.emit es).plug (D.plug ((l.keyFrame b).plug [k])))] [] G)
      (PassError.Fault l.key.Flat (Hoistable c [l.key]))

theorem forM_lowersKeys {σ : Site} {A : Tree → Prop} {lowerKey : NodeId → Lower Unit}
    (hlk : LowersKeys g m G σ A lowerKey) (ls : List Link) (b : Tree) (K D : Ctx)
    (h : Has w c st [(none, K.plug (D.plug (b.wrap ls)))] [] G) (hI : w.store.Tends g m G)
    (hm : (K.plug (D.plug (b.wrap ls))).id = m) (hσ : K.site? (D.plug (b.wrap ls)).id = some σ)
    (hA : ∀ l ∈ ls, A l.key) :
    Track g m G (pure ((ls.map Link.id).map (.reads σ Kind.slice?))) ((ls.map Link.id).forM lowerKey) w
      (fun _ w' => ∃ es ls',
      Hoisted c G.next (ls.map Link.key) es (ls'.map Link.key) ∧ ls'.map Link.id = ls.map Link.id ∧
      ls'.map Link.ty = ls.map Link.ty ∧
      Has w' c (st + { reads := Tree.refsAll c (ls.map Link.key) })
      [(none, (K.emit es).plug (D.plug (b.wrap ls')))] [] G)
      (PassError.Fault (∀ l ∈ ls, l.key.Flat) (Hoistable c (ls.map Link.key))) := by
  induction ls generalizing w st b K with
  | nil => exact .pure hI ⟨[], [], .nil, rfl, rfl, by simpa [Tree.refsAll] using h⟩
  | cons l ls ih =>
    show Track g m G (pure ([.reads σ Kind.slice? l.id] ++ (ls.map Link.id).map (.reads σ Kind.slice?)))
      (lowerKey l.id >>= fun _ => (ls.map Link.id).forM lowerKey) w _ _
    -- the other subscripts are part of the context of the innermost one
    have hplug : ∀ k : Tree, Ctx.plug (ls.map Link.frame ++ D) ((l.keyFrame b).plug [k]) =
        D.plug (b.wrap (⟨l.id, l.ty, k⟩ :: ls)) := by
      intro k
      rw [Ctx.plug_append]
      rfl
    rw [← hplug] at h hσ hm
    refine ((hlk w st K _ l b h hI hm hσ (hA l List.mem_cons_self)).mono (fun _ _ h => h) fun e he => ?_).bind ?_
    · exact he.mono (fun hf => hf l List.mem_cons_self) fun hh => (Hoistable.cons_iff.1 hh).1
    rintro _ w' ⟨es, k, hk, hw⟩ hI'
    rw [hplug] at hw hσ hm
    have hid : (D.plug (b.wrap (⟨l.id, l.ty, k⟩ :: ls))).id = (D.plug (b.wrap (l :: ls))).id := by
      refine Ctx.id_plug_congr ?_
      rw [Tree.id_wrap, Tree.id_wrap]
      rfl
    have hσ' : (K.emit es).site? (D.plug (b.wrap (⟨l.id, l.ty, k⟩ :: ls))).id = some σ := by
      rwa [Ctx.site?_emit, hid]
    have hm' : ((K.emit es).plug (D.plug (b.wrap (⟨l.id, l.ty, k⟩ :: ls)))).id = m := by
      rwa [Ctx.id_plug_emit, Ctx.id_plug_congr hid]
    refine (ih _ _ hw hI' hm' hσ' fun j hj => hA j (List.mem_cons_of_mem _ hj)).mono ?_ fun e he => ?_
    · rintro _ w'' ⟨es', ls', hls, hids, htys, hw'⟩
      refine ⟨es ++ es', ⟨l.id, l.ty, k⟩ :: ls', ?_, ?_, ?_, ?_⟩
      · exact hk.cons hls
      · rw [List.map_cons, hids]
        rfl
      · rw [List.map_cons, htys]
        rfl
      · rw [← Ctx.emit_emit]
        rw [Stats.add_reads] at hw'
        exact hw'
    · exact he.mono (fun hf j hj => hf j (List.mem_cons_of_mem _ hj)) fun hh => (Hoistable.cons_iff.1 hh).2

/-! ## One access -/

theorem replacementOf?_of_replacedBy? {s : Store} {i j : NodeId} (hi : s.replacedBy? i = some j)
    (hj : s.replacedBy? j = none) : s.replacementOf? i = some j := by
  rw [Store.replacementOf?, hi, Option.map_some, Store.followReplacements, hj]

/-- A read of the slot over loose trees. -/
theorem storageRead_does {s : Store} {temp slot : NodeId} {ty : Option Ty} {v : StorageVar} {L : Forest}
    (h : s.Bears g ((none, tempLeaf temp ty) :: (none, slotLeaf slot v) :: L ++ F) H G) :
    Edit.Does (Build.storageRead temp slot (L.map fun x => x.2.id)) s (fun i s' =>
      s'.Bears g ((none, readTree i temp slot v ty (L.map Prod.snd)) :: F) H G ∧ s'.replacements = s.replacements)
      (· = .idsExhausted) := by
  have hty : s.ty? temp = ty := (h.holds _ List.mem_cons_self).ty?
  refine Edit.Does.of_get ?_
  rw [hty]
  refine (Edit.alloc_does (L := (none, tempLeaf temp ty) :: (none, slotLeaf slot v) :: L) h .storageRead
    (tempLeaf temp ty :: slotLeaf slot v :: L.map Prod.snd) [] [] ty ?_ ?_ ?_ rfl).mono (fun _ _ h => ⟨h.1, h.2.1⟩)
    fun _ h => h
  · simp [Label.kind, tempLeaf, slotLeaf, Tree.leaf, Function.comp_def]
  · simp
  · simp [Label.Fits]

/-- The access is taken out, a reference to a temporary takes its place, and the read that binds the temporary goes
to the site. -/
theorem takeOut_course {σ : Site} {K D : Ctx} {t : Tree} {v : StorageVar}
    (h : Has w c st [(none, K.plug (D.plug t))] [] G) (hI : w.store.Tends g m G) (hm : (K.plug (D.plug t)).id = m)
    (hσ : K.site? (D.plug t).id = some σ) (hv : t.reach c = some v) :
    Course (Store.Tends g m G) (takeOut ⟨v, t.id, t.links.map Link.id⟩ σ) w (fun _ w' => ∃ i temp slot read,
      G.next ≤ temp ∧ K.site? (D.plug (tempRef i temp (some (t.ty.getD v.value)))).id = some σ ∧
      Has w' c (st + { reads := 1 })
        [(none, (K.emit [readTree read temp slot v (some (t.ty.getD v.value)) (t.links.map Link.key)]).plug
          (D.plug (tempRef i temp (some (t.ty.getD v.value)))))] [] G ∧
      t.id ∉ w'.store.ids ∧ w'.store.replacementOf? t.id = some i)
      (PassError.Fault (D ++ K).Headed True) := by
  have hpl : ∀ x, K.plug (D.plug x) = Ctx.plug (D ++ K) x := fun x => (Ctx.plug_append ..).symm
  have tends : ∀ {w : Workspace Progress} {F : Forest} {H : List Node} (x : Tree), w.store.Bears g F H G →
      (none, K.plug x) ∈ F → w.store.Tends g m G := by
    intro w F H x hk hx
    exact hk.tends hx ((Ctx.id_plug_of_site hσ).trans hm)
  have hb := hI.bears h.keeps hm
  have hheld : ¬ g.held t.id := hb.not_held_of_reach (C := D ++ K) (p := none) (by simp [hpl]) hv
  have hname : ∀ y, t.label ≠ .name y := by
    intro y
    rcases Tree.label_of_reach hv with hl | ⟨attr, hl⟩ <;> simp [hl]
  unfold takeOut
  rw [course_store]
  have hty : w.store.ty? t.id = t.ty := by
    have := hb.holds _ List.mem_cons_self
    rw [hpl] at this
    exact (Store.Holds.inside this).ty?
  simp only [hty]
  generalize some (t.ty.getD v.value) = ty
  refine course_make hI (temp_does hb ty) ?_
  rintro temp w₁ ho₁ ⟨hk₁, -, hnew⟩
  refine course_make (tends (D.plug t) hk₁ (by simp)) (name_does hk₁ _ ty) ?_
  rintro i w₂ ho₂ ⟨hk₂, -, hi, hfree, -⟩
  have hk₂ : w₂.store.Bears g ((none, Ctx.plug (D ++ K) t) :: (none, tempRef i temp ty) ::
      [(none, tempLeaf temp ty)]) [] G := by
    rw [← hpl]
    exact hk₂.perm ((List.Perm.cons _ (List.Perm.swap _ _ _)).trans (List.Perm.swap _ _ _)) (List.Perm.refl _)
  have hne : i ≠ t.id := (hk₂.ne_id (Ctx.id_mem_plug _ _)).symm
  have hne' : D ++ K ≠ [] := by
    intro he
    rw [(List.append_eq_nil_iff.1 he).2] at hσ
    cases hσ
  refine course_edit (tends (D.plug t) hk₂ (by simp [hpl])) (Edit.replace_does hk₂ rfl rfl hheld hname)
    (fun _ he => absurd he hne') ?_
  rintro _ w₃ ho₃ ⟨hk₃, hr₃⟩
  rw [← hpl] at hk₃
  -- the keys, and the husk
  rw [course_store]
  have hkeys := (hk₃.holds (none, t) (by simp)).access_keys (hk₃.fits (none, t) (by simp)) v t.id
  obtain ⟨n, N, hk₃, hn, hpar, hst⟩ := (hk₃.perm (List.Perm.swap _ _ _) (List.Perm.refl _)).stripped hv
  rw [List.append_nil] at hk₃
  rw [hkeys]
  refine course_slotName (tends (D.plug (tempRef i temp ty)) hk₃ (by simp)) hk₃ v PassError.Fault.of_exhausted ?_
  intro slot w₄ ho₄ hk₄ hr₄
  have hk₄ : w₄.store.Bears g ((none, tempLeaf temp ty) :: (none, slotLeaf slot v) :: Store.keyForest t.links ++
      [(none, K.plug (D.plug (tempRef i temp ty)))]) (n :: N) G := by
    refine hk₄.reorder fun x => ?_
    simp only [List.count_cons, List.count_append, List.count_nil]
    omega
  refine course_make (tends (D.plug (tempRef i temp ty)) hk₄ (by simp)) (storageRead_does hk₄) ?_
  rintro read w₅ ho₅ ⟨hk₅, hr₅⟩
  rw [Store.map_snd_keyForest] at hk₅
  -- the statement is still there, or it was the access itself
  have hstmt : (D.plug t).id = (D.plug (tempRef i temp ty)).id ∨
      (D.plug t).id ∉ (K.plug (D.plug (tempRef i temp ty))).ids := by
    cases D with
    | cons f D => exact .inl Ctx.id_plug_cons
    | nil =>
      refine .inr fun hmem => ?_
      have := hk₅.nodup
      rw [List.nodup_append'] at this
      exact this.2.2 (Forest.mem_ids_of_mem (List.mem_cons_of_mem _ List.mem_cons_self) hmem)
        (List.mem_map.2 ⟨n, List.mem_cons_self, hn⟩)
  have hplace : ∃ j ∈ (D.plug (tempRef i temp ty)).ids, ¬ g.held j :=
    ⟨i, Ctx.id_mem_plug _ _, hfree⟩
  refine course_edit (tends (D.plug (tempRef i temp ty)) hk₅ (by simp))
    (Edit.insertBefore_site_does (hk₅.perm (List.Perm.swap _ _ _) (List.Perm.refl _)) rfl hσ hstmt hplace) ?_ ?_
  · rintro _ ⟨rfl, hno⟩
    exact .anchor fun hh => hno (Ctx.site?_plug_of_headed hh hσ)
  rintro _ w₆ ho₆ ⟨hσ₆, hk₆, hr₆⟩
  have hmem : ∀ l ∈ t.links, l.key.id ∈ ((K.emit [readTree read temp slot v ty (t.links.map Link.key)]).plug
      (D.plug (tempRef i temp ty))).ids := by
    intro l hl
    refine Ctx.mem_ids_emit hσ₆ List.mem_cons_self ?_
    rw [Tree.ids_eq]
    refine List.mem_cons_of_mem _ (List.mem_flatMap.2 ⟨l.key, ?_, l.key.id_mem_ids⟩)
    simpa [readTree] using .inr (.inr ⟨l, hl, rfl⟩)
  have hid₆ : ((K.emit [readTree read temp slot v ty (t.links.map Link.key)]).plug
      (D.plug (tempRef i temp ty))).id = m := by
    rw [Ctx.id_plug_emit]
    exact (Ctx.id_plug_of_site hσ).trans hm
  rw [← List.append_nil (n :: N)] at hk₆
  refine course_edit (hk₆.tends List.mem_cons_self hid₆) (Edit.discard_does hk₆ hn hpar (by simp) (hst _ hmem)
    (by simp)) (fun _ he => he.elim) ?_
  rintro _ w₇ ho₇ ⟨hk₇, hr₇, hgone⟩
  have hrep : ∀ j, w₇.store.replacedBy? j = w₃.store.replacedBy? j := by
    intro j
    simp only [Store.replacedBy?, hr₇, hr₆, hr₅, hr₄]
  refine course_count (hk₇.tends List.mem_cons_self hid₆)
    ⟨i, temp, slot, read, hnew, hσ₆, ⟨?_, hk₇.toKeeps⟩, hn ▸ hgone n List.mem_cons_self, ?_⟩
  · show ({ w₇.own with stats := { w₇.own.stats with reads := w₇.own.stats.reads + 1 } } : Progress) = _
    rw [ho₇, ho₆, ho₅, ho₄, ho₃, ho₂, ho₁, h.own]
    rfl
  · refine replacementOf?_of_replacedBy? (s := w₇.store) ?_ ?_
    · rw [hrep, hr₃, if_pos rfl]
    · rw [hrep, hr₃, if_neg hne, hi]

/-- **One access is lowered.** -/
theorem hoist_track {σ : Site} {A : Tree → Prop} {lowerKey : NodeId → Lower Unit}
    (hlk : LowersKeys g m G σ A lowerKey) {K D : Ctx} {t : Tree} {v : StorageVar}
    (h : Has w c st [(none, K.plug (D.plug t))] [] G) (hI : w.store.Tends g m G) (hm : (K.plug (D.plug t)).id = m)
    (hσ : K.site? (D.plug t).id = some σ) (hv : t.access? c = some v) (hA : ∀ l ∈ t.links, A l.key) :
    Track g m G (pure (Unbounded.hoist ⟨v, t.id, t.links.map Link.id⟩ σ))
      (hoist lowerKey ⟨v, t.id, t.links.map Link.id⟩ σ) w
      (fun _ w' => ∃ es i temp ty, Hoisted c G.next [t] es [tempRef i temp ty] ∧
        K.site? (D.plug (tempRef i temp ty)).id = some σ ∧
      Has w' c (st + { reads := t.refs c }) [(none, (K.emit es).plug (D.plug (tempRef i temp ty)))] [] G ∧
      t.id ∉ w'.store.ids ∧ w'.store.replacementOf? t.id = some i)
      (PassError.Fault ((D ++ K).Headed ∧ ∀ l ∈ t.links, l.key.Flat) (Hoistable c (t.links.map Link.key))) := by
  have hf : t.Fits := Ctx.fits_of_plug (Ctx.fits_of_plug h.fits)
  have hwrap := Tree.plug_links hf
  rw [hoist_eq]
  have hkeys := forM_lowersKeys hlk t.links t.base K D (by rwa [hwrap]) hI (by rwa [hwrap]) (by rwa [hwrap]) hA
  refine (hkeys.mono (fun _ _ h => h) fun e he => he.mono And.right fun h => h).bind ?_
  rintro _ w₁ ⟨es, ls, hls, hids, htys, h₁⟩ hI₁
  -- the access has the same top and base, and other keys
  have hreach : (t.base.wrap ls).reach c = some v := by
    rw [Tree.reach, Tree.base_wrap (Tree.label_base hf)]
    exact (Tree.access?_eq_some_iff.1 hv).1
  have hlinks : (t.base.wrap ls).links = ls := Tree.links_wrap (Tree.label_base hf) ls
  have hid : (t.base.wrap ls).id = t.id := by rw [Tree.id_wrap, hids, ← Tree.id_wrap, hwrap]
  have hty : (t.base.wrap ls).ty = t.ty := by rw [Tree.ty_wrap, htys, ← Tree.ty_wrap, hwrap]
  have hσ₁ : (K.emit es).site? (D.plug (t.base.wrap ls)).id = some σ := by
    rw [Ctx.site?_emit, Ctx.id_plug_congr hid, hσ]
  have hm₁ : ((K.emit es).plug (D.plug (t.base.wrap ls))).id = m := by
    rwa [Ctx.id_plug_emit, Ctx.id_plug_congr (Ctx.id_plug_congr hid)]
  have htake := takeOut_course h₁ hI₁ hm₁ hσ₁ hreach
  have hbelow := h₁.reaches hm₁ (Ctx.id_mem_plug D (t.base.wrap ls))
  rw [hlinks, hid, hids, hty] at htake
  rw [hid] at hbelow
  refine Track.mono (.job (fun _ => rfl) hbelow fun _ => .of_course htake) ?_ fun e he =>
    he.mono (fun hh => hh.1.emit) fun _ => trivial
  rintro _ w₂ ⟨i, temp, slot, read, hnew, hσ₂, h₂, hgone, hrep⟩
  rw [Ctx.site?_emit] at hσ₂
  rw [Ctx.emit_emit, Stats.add_reads, Nat.add_comm,
    ← Tree.refs_of_reach hf (Tree.access?_eq_some_iff.1 hv).1] at h₂
  exact ⟨_, i, temp, _, Hoisted.access i temp slot read hnew hv hls .nil, hσ₂, h₂, hgone, hrep⟩

/-! ## The first access -/

/-- What is subscripted in a chain that is neither an access nor too short is not too short. -/
theorem not_short_of_frame {l : Link} {k : Tree} (ha : (l.frame.plug [k]).access? c = none)
    (hs : ¬ (l.frame.plug [k]).Short c) : ¬ k.Short c := by
  rintro ⟨v, hv, hlt⟩
  have hreach : (l.frame.plug [k]).reach c = some v := hv
  have hlinks : (l.frame.plug [k]).links.length = k.links.length + 1 := by
    show (k.links ++ [_]).length = _
    simp
  by_cases hd : v.depth = k.links.length + 1
  · rw [Tree.access?_eq_some_iff.2 ⟨hreach, hd.trans hlinks.symm⟩] at ha
    cases ha
  · exact hs ⟨v, hreach, by omega⟩

/-- What a search for the first access in a tree may answer: it finds the first access, or there is nothing to
find, or it meets what cannot be lowered. -/
def Answers (c : Catalog) (t : Tree) : Except LoweringError (Option Access) → Prop
  | .error _ => ¬ Hoistable c [t]
  | .ok none => t.Clean c
  | .ok (some a) => ∃ D u v, Finds c t D u ∧ u.access? c = some v ∧ a = ⟨v, u.id, u.links.map Link.id⟩

/-- The search in pre-order answers. A chain that is too short stops it, unless a subscript goes on with the chain.
-/
theorem firstAccessWithin_spec {s : Store} {fuel : Nat} {K : Ctx} {t : Tree} (h : s.Holds none (K.plug t))
    (hf : (K.plug t).Fits) (hn : (K.plug t).ids.Nodup) (hfuel : t.ids.length ≤ fuel)
    (hK : t.Short c → ∀ l C, K ≠ Link.frame l :: C) : Answers c t (s.firstAccessWithin c fuel t.id) := by
  induction t generalizing K fuel with
  | step t ih =>
    have hft := Ctx.fits_of_plug hf
    have hnt := ((Ctx.nodup_plug K t).1 hn).2.1
    obtain ⟨fuel, rfl⟩ : ∃ n, fuel = n + 1 := ⟨fuel - 1, by rw [Tree.ids_eq] at hfuel; simp at hfuel; omega⟩
    rw [Store.firstAccessWithin]
    rcases h.inside.accessAt (c := c) hft hnt with ⟨hat, hacc, hsub⟩ | ⟨⟨e, hat⟩, hs, -⟩ | ⟨v, hv, hat⟩
    · rw [hat]
      have hshort : ¬ t.Short c := by
        intro hs
        obtain ⟨l, C, rfl⟩ := Store.exists_link_of_isSubscripted h hf hn (hsub hs)
        exact hK hs l C rfl
      have hrec : t.receiver? c = none := by
        cases hr : t.receiver? c with
        | none => rfl
        | some v =>
          rcases Tree.access?_or_short hr with h' | h'
          · rw [hacc] at h'
            cases h'
          · exact absurd h' hshort
      rw [h.inside.children hft]
      -- the children in order: those already searched are clean
      have hkids : ∀ (rest before : List Tree), t.kids = before ++ rest → (∀ b ∈ before, b.Clean c) →
          Answers c t (Store.firstSome (s.firstAccessWithin c fuel) (rest.map Tree.id)) := by
        intro rest
        induction rest with
        | nil =>
          intro before hb hclean
          rw [List.append_nil] at hb
          exact Tree.all_iff.2 ⟨hrec, fun k hk => hclean k (hb ▸ hk)⟩
        | cons k rest ihr =>
          intro before hb hclean
          have hk : k ∈ t.kids := by simp [hb]
          obtain ⟨f, hfk⟩ := Tree.exists_frame hk
          have hbefore : f.before = before := by
            have hsplit := hb
            rw [← hfk, Frame.kids_plug, List.append_assoc] at hsplit
            have hnk := hnt
            rw [← hfk, Tree.ids_eq, Frame.kids_plug, List.append_assoc, List.nodup_cons] at hnk
            exact (Tree.split_unique hsplit hnk.2 k.id_mem_ids k.id_mem_ids).1
          have hplug : Ctx.plug (f :: K) k = K.plug t := by rw [Ctx.plug_cons, hfk]
          have hlt := Store.length_ids_kid_lt hk
          have hproper : k.Short c → ∀ l C, f :: K ≠ Link.frame l :: C := by
            rintro hs l C he
            injection he with he
            subst he
            rw [← hfk] at hacc hshort
            exact not_short_of_frame hacc hshort hs
          have hans : Answers c k (s.firstAccessWithin c fuel k.id) :=
            ih k hk (K := f :: K) (by rwa [hplug]) (by rwa [hplug]) (by rwa [hplug]) (by omega) hproper
          rw [List.map_cons, Store.firstSome]
          rcases hk' : s.firstAccessWithin c fuel k.id with e | _ | a
          · rw [hk'] at hans
            intro hall
            cases hall with
            | access ha =>
              rw [hacc] at ha
              cases ha
            | inner _ hks _ => exact hans (Hoistable.iff_forall.1 hks k hk)
          · rw [hk'] at hans
            refine ihr (before ++ [k]) (by simp [hb]) fun b hb' => ?_
            rcases List.mem_append.1 hb' with hb' | hb'
            · exact hclean b hb'
            · rw [List.mem_singleton.1 hb']
              exact hans
          · rw [hk'] at hans
            obtain ⟨D, u, v, hfinds, hv, rfl⟩ := hans
            refine ⟨D ++ [f], u, v, ?_, hv, rfl⟩
            rw [← hfk] at hrec hacc ⊢
            exact Finds.deeper hrec hacc (by rw [hbefore]; exact hclean) hfinds
      exact hkids t.kids [] rfl (by simp)
    · rw [hat]
      exact fun hall => Hoistable.not_short hft hall hs
    · rw [hat]
      exact ⟨[], t, v, .here hv, hv, rfl⟩

/-! ## All reads below a node -/

/-- `pick` selects what is in the place of the frame, which is a head and not subscripted. -/
structure Picks (pick : Kind → Option NodeId) (f : Frame) : Prop where
  pick : ∀ i, pick (f.kind [i]) = some i
  heads : f.part = .heads
  notLink : ∀ l : Link, f ≠ l.frame

theorem picks_keyFrame (l : Link) (b : Tree) : Picks Kind.slice? (l.keyFrame b) := by
  refine ⟨fun _ => rfl, rfl, fun l' h => ?_⟩
  have := congrArg Frame.left h
  simp [Link.keyFrame, Link.frame] at this

/-- **Lowering the accesses below a node one after the other lowers them all.** -/
theorem readsBelow_track {σ : Site} {pick : Kind → Option NodeId} {K D : Ctx} {f : Frame} {r : Tree} (fuel : Nat)
    (hpick : Picks pick f) (h : Has w c st [(none, K.plug (D.plug (f.plug [r])))] [] G) (hI : w.store.Tends g m G)
    (hm : (K.plug (D.plug (f.plug [r]))).id = m) (hσ : K.site? (D.plug (f.plug [r])).id = some σ)
    (hlt : r.refs c < fuel) :
    Track g m G (pure [.reads σ pick f.id]) (readsBelow σ fuel pick f.id) w (fun _ w' => ∃ es r',
      Hoisted c G.next [r] es [r'] ∧
      Has w' c (st + { reads := r.refs c }) [(none, (K.emit es).plug (D.plug (f.plug [r'])))] [] G)
      (PassError.Fault r.Flat (Hoistable c [r])) := by
  induction fuel generalizing w st pick K D f r with
  | zero => omega
  | succ fuel ih =>
    have hplug : ∀ x, K.plug (D.plug (f.plug [x])) = Ctx.plug (f :: (D ++ K)) x := by
      intro x
      rw [Ctx.plug_cons, Ctx.plug_append]
    have hmain := h.holds
    have hfit := h.fits
    have hnd := h.nodup
    simp only [hplug] at hmain hfit hnd
    have hbelow := h.reaches hm (Ctx.id_mem_plug D (f.plug [r]))
    rw [Frame.id_plug] at hbelow
    unfold readsBelow
    refine .job (fun _ => rfl) hbelow fun _ => .node (Store.find?_frame hmain) ?_
    simp only [hpick.pick]
    have hfuel : r.ids.length ≤ w.store.size + 1 := by
      have := hmain.inside.length_le ((Ctx.nodup_plug _ r).1 hnd).2.1
      omega
    have hfirst : Answers c r (w.store.firstAccess w.own.catalog r.id) := by
      rw [h.catalog]
      exact firstAccessWithin_spec hmain hfit hnd hfuel fun _ l C he => hpick.notLink l (List.cons.inj he).1
    rcases ho : w.store.firstAccess w.own.catalog r.id with e | _ | a <;> rw [ho] at hfirst
    · exact .refused ho hI (.lowering hfirst)
    · have hclean : r.Clean c := hfirst
      refine .ask ho (.pure hI ⟨[], r, Hoisted.of_clean (by simpa using hclean), ?_⟩)
      rw [hclean.refs]
      simpa using h
    · obtain ⟨D', u, v, hfinds, hv, rfl⟩ := hfirst
      have hlk : LowersKeys g m G σ (fun k => k.refs c < fuel) (readsBelow σ fuel Kind.slice?) :=
        fun w st K D l b h hI hm hσ hlt => ih (picks_keyFrame l b) h hI hm hσ hlt
      have hfu : u.Fits := Ctx.fits_of_plug (hfinds.plug_eq ▸ Ctx.fits_of_plug hfit)
      have hru := Tree.refs_of_reach hfu (Tree.access?_eq_some_iff.1 hv).1
      have hin : ∀ x, Ctx.plug (D' ++ f :: D) x = D.plug (f.plug [D'.plug x]) := fun x => Ctx.plug_append ..
      have hle : u.refs c ≤ r.refs c := by
        have := hfinds.refs (i := ⟨0⟩) (o := none) (y := "") (Ctx.plug_fits (t := u) (by
          rw [hfinds.plug_eq]
          exact Ctx.fits_of_plug hfit) (by trivial)) (by decide)
        omega
      have hkeys : ∀ l ∈ u.links, l.key.refs c < fuel := by
        intro l hl
        have : l.key.refs c ≤ Tree.refsAll c (u.links.map Link.key) :=
          Tree.count_le_of_mem (List.mem_map_of_mem hl)
        omega
      have hhoist := hoist_track (K := K) (D := D' ++ f :: D) (t := u) (w := w) hlk
        (by rw [hin, hfinds.plug_eq]; exact h) hI (by rw [hin, hfinds.plug_eq]; exact hm)
        (by rw [hin, hfinds.plug_eq]; exact hσ) hv hkeys
      refine .ask ho ((hhoist.mono (fun _ _ h => h) fun e he => ?_).bind ?_)
      · refine he.mono (fun hflat => ⟨?_, fun l hl => ?_⟩) fun hh => ?_
        · rw [List.append_assoc]
          exact Tree.Flat.headed (hfinds.plug_eq ▸ hflat) hpick.heads
        · exact Tree.All.key (Tree.All.of_plug (hfinds.plug_eq ▸ hflat)) hl
        · exact Hoistable.keys hfu (hfinds.hoistable (i := ⟨0⟩) (o := none) (y := "") hh).1 hv
      rintro _ w₂ ⟨es, i, temp, ty, hes, hσ₂, h₂, -, -⟩ hI₂
      rw [hin] at hσ₂ h₂
      have hfit₂ : (Ctx.plug D' (tempRef i temp ty)).Fits := by
        have := Ctx.fits_of_plug (Ctx.fits_of_plug h₂.fits)
        exact Tree.Fits.kid this (by simp)
      have hrefs : (Ctx.plug D' (tempRef i temp ty)).refs c + u.refs c = r.refs c :=
        hfinds.refs hfit₂ (tempName_ne_self temp)
      have hm₂ : ((K.emit es).plug (D.plug (f.plug [D'.plug (tempRef i temp ty)]))).id = m := by
        rw [Ctx.id_plug_emit]
        exact (Ctx.id_plug_of_site hσ₂).trans hm
      refine (ih hpick h₂ hI₂ hm₂ (by rw [Ctx.site?_emit]; exact hσ₂) (by omega)).mono ?_ fun e he => ?_
      · rintro _ w₃ ⟨es', r', hr', h₃⟩
        rw [Ctx.emit_emit, Stats.add_reads, Nat.add_comm (u.refs c), hrefs] at h₃
        exact ⟨es ++ es', r', hfinds.hoisted hes (tempName_ne_self temp) hfit₂ hr', h₃⟩
      · refine he.mono (fun hflat => ?_) fun hh => (hfinds.hoistable hh).2 hfit₂ (tempName_ne_self temp)
        exact Tree.Flat.plug (hfinds.plug_eq ▸ hflat) Tree.flat_leaf

/-- There is fuel for every reference to storage in a tree of the store. -/
theorem refs_lt_readBound {C : Ctx} {t : Tree} (h : Has w c st [(none, C.plug t)] [] G) :
    t.refs c < readBound w.store := by
  have hn := h.nodup
  have h1 := h.holds.inside.length_le ((Ctx.nodup_plug C t).1 hn).2.1
  have h2 : t.refs c ≤ t.ids.length := Tree.count_le_length
  unfold readBound
  omega

theorem lowerReadsBelow_track {σ : Site} {pick : Kind → Option NodeId} {K D : Ctx} {f : Frame} {r : Tree}
    (hpick : Picks pick f) (h : Has w c st [(none, K.plug (D.plug (f.plug [r])))] [] G) (hI : w.store.Tends g m G)
    (hm : (K.plug (D.plug (f.plug [r]))).id = m) (hσ : K.site? (D.plug (f.plug [r])).id = some σ) :
    Track g m G (pure [.reads σ pick f.id]) (lowerReadsBelow σ pick f.id) w (fun _ w' => ∃ es r',
      Hoisted c G.next [r] es [r'] ∧
      Has w' c (st + { reads := r.refs c }) [(none, (K.emit es).plug (D.plug (f.plug [r'])))] [] G)
      (PassError.Fault r.Flat (Hoistable c [r])) := by
  have hlt : r.refs c < readBound w.store :=
    refs_lt_readBound (C := f :: (D ++ K)) (by rwa [Ctx.plug_cons, Ctx.plug_append])
  refine Track.congr (readsBelow_track _ hpick h hI hm hσ hlt) rfl ?_
  rfl

theorem lowersKeys (g : Guard c) (m : NodeId) (G : Outside) (σ : Site) :
    LowersKeys g m G σ (fun _ => True) (lowerReadsBelow σ Kind.slice?) := by
  intro w st K D l b h hI hm hσ _
  refine lowerReadsBelow_track (picks_keyFrame l b) h hI hm hσ

/-- **A visit to a node that may be an access.** It is left alone, or lowered at the site of its place. -/
theorem lowerReadAt_track {K : Ctx} {t : Tree} (h : Has w c st [(none, K.plug t)] [] G) (hI : w.store.Tends g m G)
    (hm : (K.plug t).id = m) :
    Track g m G (Unbounded.lowerReadAt t.id) (lowerReadAt t.id) w (fun _ w' =>
      (w' = w ∧ t.access? c = none ∧ (t.Short c → w.store.isSubscripted t.id = true)) ∨
      ∃ v es i temp ty σ, t.access? c = some v ∧ Hoisted c G.next [t] es [tempRef i temp ty] ∧ K.site? i = some σ ∧
        Has w' c (st + t.charge c) [(none, (K.emit es).plug (tempRef i temp ty))] [] G ∧
        t.id ∉ w'.store.ids ∧ w'.store.replacementOf? t.id = some i)
      fun e => ¬ t.Clean c ∧ e.Fault (K.Headed ∧ t.Flat) (Walkable c K.sited [t]) := by
  have hmain := h.holds
  have hfit := h.fits
  have hnd := h.nodup
  have hft := Ctx.fits_of_plug hfit
  unfold lowerReadAt Unbounded.lowerReadAt
  rcases (Store.Holds.inside hmain).accessAt (c := c) hft ((Ctx.nodup_plug K t).1 hnd).2.1 with
    ⟨hat, hacc, hsub⟩ | ⟨⟨e, hat⟩, hs, -⟩ | ⟨v, hv, hat⟩
  all_goals rw [← h.catalog] at hat
  · exact .ask hat (.pure hI (.inl ⟨rfl, hacc, hsub⟩))
  · refine .refused hat hI ⟨fun hc => ?_, .lowering fun hh => Walkable.not_short hft hh hs⟩
    obtain ⟨v, hv, -⟩ := hs
    exact Tree.not_clean_of_reach hv hc
  · have hdirty : ¬ t.Clean c := Tree.not_clean_of_reach (Tree.access?_eq_some_iff.1 hv).1
    refine .ask hat ?_
    have hsite := Store.site_plug (a := ⟨v, t.id, t.links.map Link.id⟩) hmain hfit hnd rfl
    rcases hq : Access.site ⟨v, t.id, t.links.map Link.id⟩ w.store with e | σ <;> rw [hq] at hsite
    · refine .refused hq hI ⟨hdirty, .lowering fun hh => ?_⟩
      have := Ctx.not_sited_of_site? hsite.symm
      simp [(Walkable.of_access hft hh hv).1] at this
    refine .ask hq ((hoist_track (D := []) (lowersKeys g m G σ) h hI hm hsite.symm hv fun _ _ => trivial).mono ?_
      fun e he => ⟨hdirty, ?_⟩)
    · rintro _ w' ⟨es, i, temp, ty, hes, hσ', h', hgone, hrep⟩
      rw [← Tree.charge_of_access hv] at h'
      exact .inr ⟨v, es, i, temp, ty, σ, hv, hes, hσ', h', hgone, hrep⟩
    · exact he.mono (fun hs => ⟨hs.1, fun l hl => Tree.All.key hs.2 hl⟩)
        fun hh => (Walkable.of_access hft hh hv).2

end Lower

end ContractTree
