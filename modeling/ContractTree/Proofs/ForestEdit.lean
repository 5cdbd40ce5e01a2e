import ContractTree.Proofs.Forest

/-!
Edits of forests. Each primitive edit is a step from the forest that a store keeps to another one: a leaf or a node
is added to the loose trees, a loose tree takes a place in the tree of the module or is put in front of a
statement, and a string of single nodes, what is left of a loose tree after its parts found other places, is
discarded. Loose trees are free, so that new nodes are refused for want of identities only, and changes of place
where there is no such place.
-/

namespace ContractTree

/-- Whether the tree has a statement list below `block` with a statement in it. -/
def Tree.HasBlock (T : Tree) (block : NodeId) : Prop :=
  ∃ (f : Frame) (C : Ctx) (t : Tree), T = Ctx.plug (f :: C) t ∧ f.id = block ∧ f.part ≠ .heads

/-- A node that holds a statement has statement lists. -/
theorem Frame.statementLists_ne_nil {f : Frame} {C : Ctx} {t : Tree} (hfit : (Ctx.plug (f :: C) t).Fits)
    (hn : (Ctx.plug (f :: C) t).ids.Nodup) (hf : f.part ≠ .heads) : (f.kind [t.id]).statementLists ≠ [] := by
  intro he
  have := (Frame.holdsStatement_kind (Ctx.fits_of_plug (C := C) hfit) (Frame.id_notMem hn).2.2).2 hf
  simp [Kind.holdsStatement, he] at this

/-- A tree of a module's kind is a node over declarations. -/
theorem Tree.Fits.exists_body {T : Tree} {ks : List NodeId} (h : T.Fits) (hk : T.kind = .module ks) :
    ∃ (i : NodeId) (ty : Option Ty) (body : List Tree), T = .node i ty .module [] body [] ∧
      ks = body.map Tree.id := by
  obtain ⟨h0, h1, h2, h3⟩ := Label.parts_kind h.top
  rw [← Tree.kind, hk] at h0 h1 h2 h3
  obtain ⟨i, ty, l, hs, body, os⟩ := T
  obtain rfl : Label.module = l := h0
  obtain rfl : hs = [] := List.map_eq_nil_iff.1 h1.symm
  obtain rfl : os = [] := List.map_eq_nil_iff.1 h3.symm
  exact ⟨i, ty, body, rfl, h2⟩

/-! ## The edits -/

namespace Edit

variable {s : Store} {F L : Forest} {H : List Node} {G : Outside} {p : Option NodeId} {T t u : Tree} {C : Ctx}

theorem replacedBy?_nextId (hs : s.Sound) : s.replacedBy? s.nextId = none := by
  unfold Store.replacedBy?
  rw [List.lookup_eq_none_iff]
  intro r hr
  have := NodeId.lt_iff.1 (hs.replaced r hr)
  rw [bne_iff_ne]
  rintro he
  rw [he] at this
  omega

/-- A new leaf, whose label may be made from its identity. -/
theorem insertNew_spec (h : s.Keeps F H G) (k : NodeId → Kind) (l : NodeId → Label) (ty : Option Ty)
    (hk : ∀ i, k i = (l i).kind [] [] []) (hl : ∀ i, (l i).Fits 0 0 0) :
    Ends (insertNew k ty) s (fun i s' => s'.Keeps ((none, .leaf i ty (l i)) :: F) H G ∧
      s'.replacements = s.replacements ∧ s'.replacedBy? i = none ∧ G.next ≤ i)
        (Refusal s (· = .idsExhausted)) := by
  refine (ends_insertNew k ty).mono ?_ fun _ _ h => h
  rintro _ _ ⟨rfl, hlt, rfl⟩
  have := @Store.Keeps.grown s F H G [] ty (l s.nextId) [] [] [] h hlt rfl (hl s.nextId)
  rw [List.append_nil, List.append_nil, List.map_nil, Store.adopt_nil] at this
  rw [hk]
  exact ⟨this, rfl, replacedBy?_nextId h.sound, h.next_le⟩

/-- A new node over loose trees. -/
theorem alloc_spec (h : s.Keeps (L ++ F) H G) (l : Label) (hs bs os : List Tree) (ty : Option Ty) {k : Kind}
    (hk : k = l.kind (hs.map Tree.id) (bs.map Tree.id) (os.map Tree.id)) (hL : L.map Prod.snd = hs ++ bs ++ os)
    (hfit : l.Fits hs.length bs.length os.length) :
    Ends (alloc k ty) s (fun i s' => s'.Keeps ((none, .node i ty l hs bs os) :: F) H G ∧
      s'.replacements = s.replacements ∧ s'.replacedBy? i = none ∧ G.next ≤ i)
        (Refusal s (· = .idsExhausted)) := by
  have hch : k.children = (hs ++ bs ++ os).map Tree.id := by
    rw [hk, Kind.children_eq]
    obtain ⟨-, h1, h2, h3⟩ := @Label.parts_kind l (hs.map Tree.id) (bs.map Tree.id) (os.map Tree.id)
      (by simpa using hfit)
    rw [h1, h2, h3, List.map_append, List.map_append]
  have hfree : ∀ i ∈ k.children, s.Free i := by
    intro i hi
    rw [hch, ← hL, List.map_map] at hi
    obtain ⟨x, hx, rfl⟩ := List.mem_map.1 hi
    exact h.free (p := x.1) (List.mem_append_left _ hx)
  refine (ends_alloc k ty).mono ?_ fun e _ he => ⟨he.1, he.2.resolve_right fun ⟨i, hi, hn⟩ => hn (hfree i hi)⟩
  rintro _ _ ⟨rfl, hlt, -, rfl⟩
  rw [hch]
  subst hk
  exact ⟨h.grown hlt hL hfit, rfl, replacedBy?_nextId h.sound, h.next_le⟩

/-- A loose tree takes the place of a part of a tree, which is then loose. The whole tree has no place to be taken.
-/
theorem replace_spec (h : s.Keeps ((none, C.plug t) :: (p, u) :: F) H G) {old new : NodeId} (hold : t.id = old)
    (hnew : u.id = new) :
    Ends (replace old new) s (fun _ s' => s'.Keeps ((none, C.plug u) :: (none, t) :: F) H G ∧
      ∀ i, s'.replacedBy? i = if i = old then some new else s.replacedBy? i) (Refusal s fun _ => C = []) := by
  subst hold hnew
  have hmain := h.holds _ List.mem_cons_self
  have hfit := h.fits _ List.mem_cons_self
  refine ends_replace.mono ?_ fun _ _ he => ⟨he.1, ?_⟩
  rotate_left
  · cases C with
    | nil => rfl
    | cons f C =>
      obtain ⟨-, hold, -⟩ := Frame.id_notMem (h.tree_nodup (p := none) List.mem_cons_self)
      exact absurd ⟨_, f.id, _, _, (Store.Holds.inside hmain).top, rfl, h.free (p := p) (by simp),
        (Store.holds_plug_frame.1 hmain).2.1, Frame.replaceChild?_kind (Ctx.fits_of_plug (C := C) hfit) hold⟩ he.2
  rintro _ _ ⟨n, q, m, k, hn, hq, -, hm, hk, rfl⟩
  refine ⟨?_, fun i => Store.replacedBy?_recordReplacement _ _⟩
  have hparent : C.parent = some q := by
    rw [← (Store.Holds.inside hmain).parent?, Store.parent?, hn, Option.bind_some, hq]
  obtain ⟨f, C, rfl⟩ : ∃ f C', C = f :: C' := by
    cases C with
    | nil => simp at hparent
    | cons f C => exact ⟨f, C, rfl⟩
  obtain rfl : f.id = q := by simpa using hparent
  obtain ⟨hft, hold, -⟩ := Frame.id_notMem (h.tree_nodup (p := none) List.mem_cons_self)
  have hf := (Store.holds_plug_frame.1 hmain).2.1
  rw [hm] at hf
  rw [Option.some.inj hf, show ([t].map Tree.id) = [t.id] from rfl,
    Frame.replaceChild?_kind (Ctx.fits_of_plug (C := C) hfit) hold, Option.some.injEq] at hk
  subst hk
  have hfu : f.id ≠ u.id := h.ne_id ((Ctx.mem_ids_plug _ _ _).2 (.inl (by simp [Ctx.ids])))
  have htu : t.id ≠ u.id := h.ne_id (Ctx.id_mem_plug _ _)
  refine Store.Keeps.refilled [(p, u)] [(none, t)] [t] [u] h ?_ ?_ (by simp) ?_ (by simp) rfl ?_ ?_ ?_ ?_
  · exact List.Perm.swap _ _ _
  · exact Frame.plug_fits (Ctx.fits_of_plug (C := C) hfit) (h.fits (p, u) (by simp))
  · exact h.sound.swapped (Store.mem_ids_of_find? hn)
  · rw [Store.find?_swapped]
    simp [hft, hfu]
  · intro v hv
    obtain rfl := List.mem_singleton.1 hv
    rw [Store.find?_swapped]
    simp [Ne.symm hfu, Ne.symm htu]
  · intro x hx
    obtain rfl := List.mem_singleton.1 hx
    rw [Store.find?_swapped]
    simp [Ne.symm hft]
  · intro i hif hi
    simp only [List.map_cons, List.map_nil, List.cons_append, List.nil_append, List.mem_cons, List.not_mem_nil,
      or_false, not_or] at hi
    rw [Store.find?_swapped]
    simp [hif, hi.1, hi.2]

/-- A loose tree is put in front of a statement, if the block has it. -/
theorem insertBefore_spec (h : s.Keeps ((none, T) :: (p, u) :: F) H G) {stmt : NodeId} (hstmt : u.id = stmt)
    (anchor : NodeId) {block : NodeId} (hblock : T.HasBlock block) :
    Ends (insertBefore stmt anchor block) s (fun _ s' => ∃ (f : Frame) (C : Ctx) (t : Tree),
      T = Ctx.plug (f :: C) t ∧
      f.id = block ∧ t.id = anchor ∧ f.part ≠ .heads ∧ s'.Keeps ((none, Ctx.plug (f.push [u] :: C) t) :: F) H G ∧
      s'.replacements = s.replacements)
      (Refusal s fun e => e = .anchorNotFound anchor block ∧ ¬ ∃ (f : Frame) (C : Ctx) (t : Tree),
        T = Ctx.plug (f :: C) t ∧ f.id = block ∧ t.id = anchor ∧ f.part ≠ .heads) := by
  subst hstmt
  obtain ⟨g, C, x, rfl, rfl, hg⟩ := hblock
  have hmain := h.holds _ List.mem_cons_self
  have hfit := h.fits _ List.mem_cons_self
  have hnd := h.tree_nodup (p := none) List.mem_cons_self
  have hlists := Frame.statementLists_ne_nil hfit hnd hg
  rw [← g.id_plug [x]]
  rw [Ctx.plug_cons] at h hmain hfit hnd ⊢
  rw [show g.kind [x.id] = (g.plug [x]).kind by simp] at hlists
  generalize g.plug [x] = b at h hmain hfit hnd hlists ⊢
  have htop := (Store.Holds.inside hmain).top
  refine (ends_insertBefore u.id anchor b.id).mono ?_ fun e _ he => ⟨he.1, ?_⟩
  rotate_left
  · obtain hfree | hreg | ⟨m, hm, hempty | ⟨rfl, hnone⟩⟩ := he.2
    · exact absurd (h.free (p := p) (by simp)) hfree
    · exact absurd (Store.mem_ids_of_find? htop) hreg
    · rw [← Option.some.inj (htop.symm.trans hm)] at hempty
      exact absurd hempty hlists
    · refine ⟨rfl, ?_⟩
      rintro ⟨f, C', t, hT, hid, rfl, hf⟩
      obtain ⟨rfl, rfl⟩ := Ctx.plug_inj (D := C') (u := f.plug [t]) hT hnd (by simpa using hid.symm)
      obtain ⟨-, hold, -⟩ := Frame.id_notMem (C := C) hnd
      rw [← Option.some.inj (htop.symm.trans hm), Tree.root_kind, Frame.kind_plug, List.map_cons, List.map_nil,
        Frame.insertStatement?_kind (Ctx.fits_of_plug hfit) hf hold] at hnone
      cases hnone
  rintro _ _ ⟨m, k, -, hm, hk, rfl⟩
  rw [htop, Option.some.injEq] at hm
  subst hm
  obtain ⟨f, t, hb, rfl, hf⟩ := Tree.exists_frame_of_insertStatement? (Ctx.fits_of_plug hfit) hk
  subst hb
  refine ⟨f, C, t, rfl, f.id_plug _ |>.symm, rfl, hf, ?_, rfl⟩
  obtain ⟨hft, hold, -⟩ := Frame.id_notMem (C := C) hnd
  have hfu : f.id ≠ u.id := h.ne_id ((Ctx.mem_ids_plug C _ _).2 (.inr (by simpa using (f.plug [t]).id_mem_ids)))
  have htu : t.id ≠ u.id := h.ne_id ((Ctx.mem_ids_plug (f :: C) _ _).2 (.inr t.id_mem_ids))
  rw [Tree.root_kind, Frame.kind_plug, List.map_cons, List.map_nil,
    Frame.insertStatement?_kind (Ctx.fits_of_plug hfit) hf hold, Option.some.injEq] at hk
  subst hk
  have hplug : Ctx.plug (f.push [u] :: C) t = C.plug (f.plug [u, t]) := by
    rw [Ctx.plug_cons, Frame.plug_push]
    rfl
  rw [hplug, Frame.id_plug]
  refine Store.Keeps.refilled [(p, u)] [] [t] [u, t] h ?_ ?_ (by simp) ?_ (by simp) rfl ?_ ?_ ?_ ?_
  · exact List.Perm.swap _ _ _
  · have hu : ∀ v ∈ [u], v.Fits := by simpa using h.fits (p, u) (by simp)
    have := Frame.push_fits (Ctx.fits_of_plug hfit) hf hu
    rwa [Frame.plug_push] at this
  · exact h.sound.of_ids (by simp) rfl rfl
  · rw [Store.find?_placed]
    simp [hfu]
  · intro v hv
    rw [Store.find?_placed]
    rcases List.mem_cons.1 hv with rfl | hv
    · simp [Ne.symm hfu]
    · obtain rfl := List.mem_singleton.1 hv
      have ht := (Store.Holds.inside (C := f :: C) hmain).top
      rw [ht]
      simp [Ne.symm hft, htu, Tree.root]
  · simp
  · intro i hif hi
    simp only [List.map_cons, List.map_nil, List.append_nil, List.mem_cons, List.not_mem_nil, or_false,
      not_or] at hi
    rw [Store.find?_placed]
    simp [hif, hi.1]

/-- A loose tree is put at the end of a module. -/
theorem appendDeclaration_spec (h : s.Keeps ((none, T) :: (p, u) :: F) H G) {module decl : NodeId}
    (hm : T.id = module) (hdecl : u.id = decl) :
    Ends (appendDeclaration module decl) s (fun _ s' => ∃ (i : NodeId) (ty : Option Ty) (body : List Tree),
      T = .node i ty .module [] body [] ∧ s'.Keeps ((none, .node i ty .module [] (body ++ [u]) []) :: F) H G ∧
      s'.replacements = s.replacements) (Refusal s fun _ => T.label ≠ .module) := by
  subst hm hdecl
  have hmain := h.holds _ List.mem_cons_self
  have hfit := h.fits _ List.mem_cons_self
  refine (ends_appendDeclaration T.id u.id).mono ?_ fun _ _ he => ⟨he.1, fun hl => ?_⟩
  rotate_left
  · rcases he.2 with hfree | hm
    · exact hfree (h.free (p := p) (by simp))
    · simpa [(Tree.Fits.isModule_kind hfit).2 hl] using hm _ hmain.top
  rintro _ _ ⟨m, ks, -, hm, hk, rfl⟩
  rw [hmain.top, Option.some.injEq] at hm
  subst hm
  obtain ⟨i, ty, body, rfl, rfl⟩ := Tree.Fits.exists_body hfit hk
  refine ⟨i, ty, body, rfl, ?_, rfl⟩
  let f : Frame := ⟨i, ty, .module, .body, body, [], [], []⟩
  have hf : ∀ us, f.plug us = .node i ty .module [] (body ++ us) [] := fun us => by simp [f, Frame.plug]
  have hfu : i ≠ u.id := h.ne_id (Tree.id_mem_ids (.node i ty .module [] body []))
  have h' : s.Keeps ((none, Ctx.plug [] (f.plug [])) :: ([(p, u)] ++ F)) H G := by
    rw [hf, List.append_nil]
    exact h
  rw [← hf]
  refine Store.Keeps.refilled [(p, u)] [] [] [u] h' ?_ ?_ (by simp) ?_ (by simp) rfl ?_ ?_ ?_ ?_
  · exact List.Perm.refl _
  · rw [hf, Tree.fits_iff]
    refine ⟨by simp [Label.Fits], fun k hk => ?_⟩
    simp only [Tree.kids_node, List.nil_append, List.append_nil, List.mem_append, List.mem_singleton] at hk
    rcases hk with hk | rfl
    · exact Tree.Fits.kid hfit (by simp [hk])
    · exact h.fits (p, k) (by simp)
  · exact h.sound.of_ids (by simp) rfl rfl
  · rw [Store.find?_placed]
    simp [f, hfu, Frame.kind, Label.kind]
  · intro v hv
    obtain rfl := List.mem_singleton.1 hv
    rw [Store.find?_placed]
    simp [Ne.symm hfu, f]
  · simp
  · intro j hj hi
    have hi : j ≠ u.id := by simpa using hi
    have hj : j ≠ i := hj
    rw [Store.find?_placed]
    simp [hj, hi]

/-- The type of a node is changed. -/
theorem updateTy_spec (h : s.Keeps ((none, C.plug t) :: F) H G) {i : NodeId} (hi : t.id = i)
    (g : Option Ty → Option Ty) : Ends (updateNode i fun n => { n with ty := g n.ty }) s
      (fun _ s' => s'.Keeps ((none, C.plug (t.withTy (g t.ty))) :: F) H G ∧ s'.replacements = s.replacements)
      (Refusal s fun _ => False) := by
  subst hi
  have hmain := h.holds _ List.mem_cons_self
  have hfit := h.fits _ List.mem_cons_self
  obtain ⟨-, ht, hCt⟩ := (Ctx.nodup_plug C t).1 (h.tree_nodup (p := none) List.mem_cons_self)
  apply ends_updateNode (Store.mem_ids_of_find? (Store.Holds.inside hmain).top)
  have hids : (C.plug (t.withTy (g t.ty))).ids.Perm (C.plug t).ids := by
    refine (Ctx.ids_plug C _).trans ?_
    rw [Tree.ids_withTy]
    exact (Ctx.ids_plug C t).symm
  have hall := List.Perm.append_right (H.map Node.id) (List.Perm.append_right (Forest.ids F) hids)
  have hfind : ∀ j, (s.update t.id fun n => { n with ty := g n.ty }).find? j =
      (s.find? j).map fun m => if j = t.id then { m with ty := g m.ty } else m :=
    fun j => Store.find?_update (by intro; rfl) t.id
  have hfix : ∀ j ≠ t.id, (s.update t.id fun n => { n with ty := g n.ty }).find? j = s.find? j := by
    intro j hj
    rw [hfind]
    simp [hj]
  have hrest : ∀ j ∈ Forest.ids F ++ H.map Node.id, j ≠ t.id := by
    rintro j hj rfl
    have := h.nodup
    rw [Forest.ids_cons, List.append_assoc, List.nodup_append'] at this
    exact this.2.2 ((Ctx.mem_ids_plug C t _).2 (.inr t.id_mem_ids)) hj
  have hsids := Store.ids_update (s := s) (f := fun n => { n with ty := g n.ty }) (by intro; rfl) t.id
  refine ⟨⟨?_, ?_, ?_, ?_, ?_, ?_, ?_, ?_, h.next_le⟩, rfl⟩
  · exact h.sound.of_ids hsids rfl rfl
  · intro x hx
    rcases List.mem_cons.1 hx with rfl | hx
    · exact Ctx.plug_fits hfit (Tree.fits_withTy.2 (Ctx.fits_of_plug hfit))
    · exact h.fits x (List.mem_cons_of_mem _ hx)
  · rw [Forest.ids_cons]
    exact hall.nodup_iff.2 (by simpa using h.nodup)
  · intro x hx
    rcases List.mem_cons.1 hx with rfl | hx
    · obtain ⟨hC, hin⟩ := Store.holds_plug.1 hmain
      refine Store.holds_plug.2 ⟨fun n hn => ?_, Store.holds_iff.2 ⟨?_, fun k hk => ?_⟩⟩
      · rw [Tree.id_withTy] at hn
        have hnC : n.id ∈ C.ids := by
          rw [← Ctx.map_id_nodes C t.id]
          exact List.mem_map_of_mem hn
        rw [hfix n.id fun he => hCt _ hnC (he ▸ t.id_mem_ids), hC n hn]
      · rw [Tree.id_withTy, hfind, hin.top]
        simp [Tree.root]
      · rw [Tree.kids_withTy] at hk
        rw [Tree.id_withTy]
        refine (hin.kid hk).congr fun j hj => hfix j ?_
        rintro rfl
        rw [Tree.ids_eq, List.nodup_cons] at ht
        exact ht.1 (List.mem_flatMap.2 ⟨k, hk, hj⟩)
    · exact (h.holds x (List.mem_cons_of_mem _ hx)).congr fun j hj =>
        hfix j (hrest j (List.mem_append_left _ (Forest.mem_ids_of_mem hx hj)))
  · intro n hn
    rw [hfix n.id (hrest n.id (List.mem_append_right _ (List.mem_map_of_mem hn)))]
    exact h.husks n hn
  · intro x hx q hq
    rcases List.mem_cons.1 hx with rfl | hx
    · simp at hq
    · exact h.adrift x (List.mem_cons_of_mem _ hx) q hq
  · intro j hj
    rw [hsids] at hj
    refine (h.rest j hj).imp_left fun hj => ?_
    rw [Forest.ids_cons] at hj ⊢
    exact hall.mem_iff.2 hj
  · intro j hj
    refine ⟨(h.apart j hj).1, fun hm => (h.apart j hj).2 ?_⟩
    rw [Forest.ids_cons] at hm ⊢
    exact hall.mem_iff.1 hm

end Edit

/-! ## Husks -/

namespace Store

variable {s : Store} {F : Forest} {H N : List Node} {G : Outside} {p : Option NodeId} {T t : Tree} {i : NodeId}

/-- Above the top of a loose tree there is no module. -/
theorem Keeps.sunk_root (h : s.Keeps ((p, t) :: F) H G) (hm : t.label ≠ .module) : Sunk (t.root p :: H) t.id := by
  have hkind : t.kind.isModule = false := by
    rw [Bool.eq_false_iff, ne_eq, Tree.Fits.isModule_kind (h.fits _ List.mem_cons_self)]
    exact hm
  rw [← t.root_id p]
  cases hp : p with
  | none => exact .top List.mem_cons_self rfl hkind
  | some q => exact .under List.mem_cons_self rfl ((h.adrift _ List.mem_cons_self q hp).mono
      (List.subset_cons_self _ _))

/-- A loose tree is seen as its top and the trees below it. -/
theorem Keeps.felled (h : s.Keeps ((p, t) :: F) H G) (hm : t.label ≠ .module) :
    s.Keeps (t.kids.map (some t.id, ·) ++ F) (t.root p :: H) G := by
  have hids : Forest.ids (t.kids.map (some t.id, ·)) = t.kids.flatMap Tree.ids := by
    simp [Forest.ids, List.flatMap_map]
  have hall : (Forest.ids (t.kids.map (some t.id, ·) ++ F) ++ (t.root p :: H).map Node.id).Perm
      (Forest.ids ((p, t) :: F) ++ H.map Node.id) := by
    simp only [Forest.ids_append, hids, Forest.ids_cons, Tree.ids_eq t, List.map_cons, Tree.root_id,
      List.perm_iff_count, List.count_append, List.count_cons]
    intro a
    omega
  have hmain := h.holds _ List.mem_cons_self
  refine ⟨h.sound, ?_, hall.nodup_iff.2 h.nodup, ?_, ?_, ?_, fun i hi => (h.rest i hi).imp_left hall.mem_iff.2,
    fun i hi => ⟨(h.apart i hi).1, fun hm => (h.apart i hi).2 (hall.mem_iff.1 hm)⟩, h.next_le⟩
  · intro x hx
    rcases List.mem_append.1 hx with hx | hx
    · obtain ⟨k, hk, rfl⟩ := List.mem_map.1 hx
      exact Tree.Fits.kid (h.fits _ List.mem_cons_self) hk
    · exact h.fits x (List.mem_cons_of_mem _ hx)
  · intro x hx
    rcases List.mem_append.1 hx with hx | hx
    · obtain ⟨k, hk, rfl⟩ := List.mem_map.1 hx
      exact Holds.kid hmain hk
    · exact h.holds x (List.mem_cons_of_mem _ hx)
  · intro n hn
    rcases List.mem_cons.1 hn with rfl | hn
    · exact Holds.top hmain
    · exact h.husks n hn
  · intro x hx q hq
    rcases List.mem_append.1 hx with hx | hx
    · obtain ⟨k, hk, rfl⟩ := List.mem_map.1 hx
      exact Option.some.inj hq ▸ h.sunk_root hm
    · exact (h.adrift x (List.mem_cons_of_mem _ hx) q hq).mono (List.subset_cons_self _ _)

/-- Each node has the next one as its first child; its other children are in `X`. -/
def Strung (X : List NodeId) : List Node → Prop
  | [] => True
  | n :: N => (∃ others, others ⊆ X ∧ n.children = (N.head?.map Node.id).toList ++ others) ∧
      (∀ m ∈ N.head?, m.parent = some n.id) ∧ Strung X N

/-- The store without these nodes. -/
def without (s : Store) (l : List NodeId) : Store := { s with nodes := s.nodes.filter (·.id ∉ l) }

theorem without_cons (l : List NodeId) : (s.erase i).without l = s.without (i :: l) := by
  simp only [without, erase, List.filter_filter]
  congr 2
  funext n
  by_cases h : n.id = i <;> simp [h]

theorem ids_without (l : List NodeId) : (s.without l).ids = s.ids.filter (· ∉ l) := by
  simp [ids, without, List.filter_map, Function.comp_def]

theorem find?_without (l : List NodeId) : (s.without l).find? i = if i ∈ l then none else s.find? i := by
  induction l generalizing s with
  | nil => simp [without]
  | cons j l ih =>
    rw [← without_cons, ih, find?_erase]
    by_cases hj : i = j <;> simp [hj]

theorem Sound.without (hs : s.Sound) (l : List NodeId) : (s.without l).Sound := by
  refine ⟨?_, fun i hi => hs.below i ?_, hs.replaced⟩
  · rw [ids_without]
    exact hs.nodup.filter _
  · rw [ids_without] at hi
    exact (List.mem_filter.1 hi).1

/-- Discarding the first node of a string removes the string and nothing else, if the other children have parents
that are not on it. -/
theorem discardAll_strung {X : List NodeId} (hN : ∀ n ∈ N, s.find? n.id = some n) (hnd : (N.map Node.id).Nodup)
    (hX : ∀ i ∈ X, ∀ n ∈ N, s.parent? i ≠ some n.id) (hst : Strung X N) :
    s.discardAll (N.head?.map Node.id).toList = s.without (N.map Node.id) := by
  induction N generalizing s with
  | nil => simp [discardAll, without]
  | cons n N ih =>
    obtain ⟨⟨others, hsub, hch⟩, hpar, hst⟩ := hst
    have hn := hN n List.mem_cons_self
    rw [List.map_cons, List.nodup_cons] at hnd
    have herase : ∀ j, (s.erase n.id).parent? j = if j = n.id then none else s.parent? j := by
      intro j
      rw [parent?, find?_erase]
      by_cases hj : j = n.id <;> simp [hj, parent?]
    have hnext : ∀ m ∈ N.head?, (s.erase n.id).parent? m.id = some n.id := by
      intro m hm
      have hmN : m ∈ N := List.mem_of_mem_head? hm
      have hne : m.id ≠ n.id := fun he => hnd.1 (he ▸ List.mem_map_of_mem hmN)
      rw [herase, if_neg hne, parent?, hN m (List.mem_cons_of_mem _ hmN)]
      exact hpar m hm
    have hothers : ∀ j ∈ others, (s.erase n.id).parent? j ≠ some n.id := by
      intro j hj
      rw [herase]
      split
      · simp
      · exact hX j (hsub hj) n List.mem_cons_self
    have hfilter : n.children.filter (fun c => (s.erase n.id).parent? c = some n.id) =
        (N.head?.map Node.id).toList := by
      have hnil : others.filter (fun c => (s.erase n.id).parent? c = some n.id) = [] := by
        rw [List.filter_eq_nil_iff]
        simpa using hothers
      rw [hch, List.filter_append, hnil, List.append_nil, List.filter_eq_self]
      intro j hj
      rw [Option.mem_toList, Option.map_eq_some_iff] at hj
      obtain ⟨m, hm, rfl⟩ := hj
      simpa using hnext m hm
    rw [List.head?_cons, Option.map_some, Option.toList_some, discardAll]
    split
    · next h => rw [hn] at h; cases h
    · next m h =>
      rw [hn, Option.some.injEq] at h
      subst h
      simp only [hfilter, List.append_nil]
      rw [List.map_cons, ← without_cons]
      apply ih
      · intro m hm
        have hne : m.id ≠ n.id := fun he => hnd.1 (he ▸ List.mem_map_of_mem hm)
        rw [find?_erase, if_neg hne]
        exact hN m (List.mem_cons_of_mem _ hm)
      · exact hnd.2
      · intro j hj m hm
        rw [herase]
        split
        · simp
        · exact hX j hj m (List.mem_cons_of_mem _ hm)
      · exact hst

/-- The parent of a node in a tree without a parent is in the tree. -/
theorem Holds.parent?_mem (h : s.Holds none T) (hi : i ∈ T.ids) {q : NodeId} (hq : s.parent? i = some q) :
    q ∈ T.ids := by
  obtain ⟨C, u, rfl, rfl⟩ := Tree.exists_place hi
  rw [h.inside.parent?] at hq
  cases C with
  | nil => simp at hq
  | cons f C =>
    obtain rfl : f.id = q := by simpa using hq
    exact (Ctx.mem_ids_plug _ _ _).2 (.inl List.mem_cons_self)

end Store

/-- A string of single nodes that has no parent is discarded. -/
theorem Edit.discard_spec {s : Store} {F : Forest} {H N : List Node} {G : Outside} {T : Tree} {n : Node}
    (h : s.Keeps ((none, T) :: F) (n :: N ++ H) G) {i : NodeId} (hi : n.id = i) (hp : n.parent = none)
    (hF : ∀ x ∈ F, x.1 = none) (hst : Store.Strung T.ids (n :: N)) :
    Ends (discard i) s (fun _ s' => s'.Keeps ((none, T) :: F) H G ∧ s'.replacements = s.replacements ∧
      ∀ m ∈ n :: N, m.id ∉ s'.ids) (Refusal s fun _ => False) := by
  subst hi
  have hnd := h.nodup
  rw [List.map_append, ← List.append_assoc, List.nodup_append', List.nodup_append'] at hnd
  obtain ⟨⟨-, hndN, hFN⟩, -, hNH⟩ := hnd
  have hdis : s.discardAll [n.id] = s.without ((n :: N).map Node.id) := by
    refine Store.discardAll_strung (N := n :: N) (fun m hm => h.husks m (List.mem_append_left _ hm)) hndN ?_ hst
    intro i hi m hm hq
    have := Store.Holds.parent?_mem (h.holds _ List.mem_cons_self) hi hq
    exact hFN (by simp [this]) (List.mem_map_of_mem hm)
  refine ends_discard.mono ?_ fun _ _ he => ⟨he.1, he.2 n (h.husks n (by simp)) hp⟩
  rintro _ _ ⟨-, rfl⟩
  rw [hdis]
  have hfix : ∀ i ∈ Forest.ids ((none, T) :: F) ++ H.map Node.id,
      (s.without ((n :: N).map Node.id)).find? i = s.find? i := by
    intro i hi
    rw [Store.find?_without, if_neg]
    intro hiN
    rcases List.mem_append.1 hi with hi | hi
    · exact hFN hi hiN
    · exact hNH (List.mem_append_right _ hiN) hi
  have hsub : List.Sublist (Forest.ids ((none, T) :: F) ++ H.map Node.id)
      (Forest.ids ((none, T) :: F) ++ (n :: N ++ H).map Node.id) := by
    rw [List.map_append]
    exact List.Sublist.append_left (List.sublist_append_right _ _) _
  refine ⟨⟨h.sound.without _, h.fits, h.nodup.sublist hsub, ?_, ?_, ?_, ?_, ?_, h.next_le⟩, rfl, ?_⟩
  · intro x hx
    exact (h.holds x hx).congr fun i hi => hfix i (List.mem_append_left _ (Forest.mem_ids_of_mem hx hi))
  · intro m hm
    rw [hfix m.id (List.mem_append_right _ (List.mem_map_of_mem hm))]
    exact h.husks m (List.mem_append_right _ hm)
  · intro x hx q hq
    rcases List.mem_cons.1 hx with rfl | hx
    · simp at hq
    · simp [hF x hx] at hq
  · intro i hi
    rw [Store.ids_without, List.mem_filter] at hi
    have hiN : i ∉ (n :: N).map Node.id := by simpa using hi.2
    refine (h.rest i hi.1).imp_left fun hr => ?_
    rw [List.map_append, List.mem_append, List.mem_append] at hr
    rcases hr with hr | hr | hr
    · exact List.mem_append_left _ hr
    · exact absurd hr hiN
    · exact List.mem_append_right _ hr
  · intro i hi
    exact ⟨(h.apart i hi).1, fun hm => (h.apart i hi).2 (hsub.subset hm)⟩
  · intro m hm hi
    rw [Store.ids_without, List.mem_filter] at hi
    have : m.id ∉ (n :: N).map Node.id := by simpa using hi.2
    exact this (List.mem_map_of_mem hm)

end ContractTree
