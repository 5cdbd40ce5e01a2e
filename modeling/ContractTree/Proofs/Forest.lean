import ContractTree.Proofs.Ends

/-!
Forests in a store. Between two stable points of a pass the store holds several trees: the tree of the module,
parts taken out of it, and parts that wait for a place. `Store.Keeps s F H G` says that the trees of `F` and the
single nodes of `H` share no node, that the store holds them all, that no tree hangs from a module (`Sunk`), and
that what else the store holds is in `G`. New nodes have identities from `G.next` on.

Two changes of a store are steps from forest to forest: a new node over loose trees (`Keeps.grown`), and an
exchange of what is in a place of a tree with loose trees (`Keeps.refilled`), of which replacement and insertion
are cases.
-/

namespace ContractTree

/-- Trees, each with the node that its top names as its parent. -/
abbrev Forest := List (Option NodeId × Tree)

namespace Forest

def ids (F : Forest) : List NodeId := F.flatMap fun x => x.2.ids

variable {F F' : Forest} {p : Option NodeId} {t : Tree}

@[simp] theorem ids_nil : ids [] = [] := rfl
@[simp] theorem ids_cons : ids ((p, t) :: F) = t.ids ++ ids F := by simp [ids]
@[simp] theorem ids_append : ids (F ++ F') = ids F ++ ids F' := by simp [ids]

theorem ids_eq_flatMap : ids F = (F.map Prod.snd).flatMap Tree.ids := by simp [ids, List.flatMap_map]

theorem ids_perm (h : F.Perm F') : (ids F).Perm (ids F') := h.flatMap_right _

theorem mem_ids_of_mem (h : (p, t) ∈ F) {i : NodeId} (hi : i ∈ t.ids) : i ∈ ids F := List.mem_flatMap.2 ⟨_, h, hi⟩

end Forest

/-- What a store may hold beside a forest, and the first of the identities that are new. -/
structure Outside where
  ids : List NodeId
  next : NodeId

namespace Store

/-- The node and all nodes above it are single nodes of `H`, and the topmost is not a module. -/
inductive Sunk (H : List Node) : NodeId → Prop
  | top {n : Node} (hn : n ∈ H) (hp : n.parent = none) (hm : n.kind.isModule = false) : Sunk H n.id
  | under {n : Node} {p : NodeId} (hn : n ∈ H) (hp : n.parent = some p) (h : Sunk H p) : Sunk H n.id

theorem Sunk.mono {H H' : List Node} {i : NodeId} (hsub : H ⊆ H') (h : Sunk H i) : Sunk H' i := by
  induction h with
  | top hn hp hm => exact .top (hsub hn) hp hm
  | under hn hp _ ih => exact .under (hsub hn) hp ih

/-- What the store holds beside a tree. -/
def outside (s : Store) (t : Tree) : Outside := ⟨s.ids.filter (· ∉ t.ids), s.nextId⟩

@[simp] theorem mem_outside {s : Store} {t : Tree} {i : NodeId} :
    i ∈ (s.outside t).ids ↔ i ∈ s.ids ∧ i ∉ t.ids := by
  simp [outside]

/-- The store holds the trees of `F` and the nodes of `H`, which share no node; `G` lists what else it may hold,
all of it older than the next new node. -/
structure Keeps (s : Store) (F : Forest) (H : List Node) (G : Outside) : Prop where
  sound : s.Sound
  fits : ∀ x ∈ F, x.2.Fits
  nodup : (Forest.ids F ++ H.map Node.id).Nodup
  holds : ∀ x ∈ F, s.Holds x.1 x.2
  husks : ∀ n ∈ H, s.find? n.id = some n
  adrift : ∀ x ∈ F, ∀ q, x.1 = some q → Sunk H q
  rest : ∀ i ∈ s.ids, i ∈ Forest.ids F ++ H.map Node.id ∨ i ∈ G.ids
  apart : ∀ i ∈ G.ids, i < s.nextId ∧ i ∉ Forest.ids F ++ H.map Node.id
  next_le : G.next ≤ s.nextId

/-- The store holds a tree whose top is `m` and has no parent. -/
def Good (m : NodeId) (s : Store) : Prop := s.Sound ∧ ∃ t : Tree, t.id = m ∧ t.Fits ∧ t.ids.Nodup ∧ s.Holds none t

variable {s s' : Store} {F F' : Forest} {H : List Node} {G : Outside} {p : Option NodeId} {t u : Tree} {C : Ctx}
  {f : Frame} {i : NodeId}

namespace Keeps

theorem mem_ids (h : s.Keeps F H G) (hi : i ∈ Forest.ids F ++ H.map Node.id) : i ∈ s.ids := by
  rcases List.mem_append.1 hi with hi | hi
  · obtain ⟨x, hx, hi⟩ := List.mem_flatMap.1 hi
    exact (h.holds x hx).mem_ids hi
  · obtain ⟨n, hn, rfl⟩ := List.mem_map.1 hi
    exact mem_ids_of_find? (h.husks n hn)

theorem tree_nodup (h : s.Keeps F H G) (ht : (p, t) ∈ F) : t.ids.Nodup := by
  obtain ⟨xs, ys, rfl⟩ := List.append_of_mem ht
  have := h.nodup
  simp only [Forest.ids_append, Forest.ids_cons, List.append_assoc] at this
  exact (List.nodup_append'.1 (List.nodup_append'.1 this).2.1).1

theorem ne_id {q : Option NodeId} (h : s.Keeps ((p, t) :: (q, u) :: F) H G) (hi : i ∈ t.ids) : i ≠ u.id := by
  rintro rfl
  have := h.nodup
  rw [Forest.ids_cons, Forest.ids_cons, List.append_assoc, List.nodup_append'] at this
  exact this.2.2 hi (by simp [u.id_mem_ids])

theorem good (h : s.Keeps F H G) (ht : (none, t) ∈ F) : Good t.id s :=
  ⟨h.sound, t, rfl, h.fits _ ht, h.tree_nodup ht, h.holds _ ht⟩

/-- The way up from a sunk node does not end in a module. -/
theorem isAttached_sunk (h : s.Keeps F H G) (hi : Sunk H i) : s.isAttached i = false := by
  unfold isAttached
  generalize s.size = fuel
  induction hi generalizing fuel with
  | top hn hp hm =>
    cases fuel with
    | zero => rfl
    | succ fuel =>
      rw [attachedWithin, h.husks _ hn]
      simp only [hp, hm]
  | under hn hp _ ih =>
    cases fuel with
    | zero => rfl
    | succ fuel =>
      rw [attachedWithin, h.husks _ hn]
      simp only [hp, ih, Bool.and_false]

/-- A tree of the forest may be moved. -/
theorem free (h : s.Keeps F H G) (ht : (p, t) ∈ F) : s.Free t.id := by
  refine ⟨(h.holds _ ht).mem_ids t.id_mem_ids, ?_⟩
  rw [owner?, (h.holds _ ht).parent?]
  cases p with
  | none => rfl
  | some q => simp [Option.filter, h.isAttached_sunk (h.adrift _ ht q rfl)]

theorem perm {H' : List Node} (h : s.Keeps F H G) (hF : F.Perm F') (hH : H.Perm H') : s.Keeps F' H' G where
  sound := h.sound
  fits x hx := h.fits x (hF.mem_iff.2 hx)
  nodup := ((Forest.ids_perm hF).append (hH.map _)).nodup_iff.1 h.nodup
  holds x hx := h.holds x (hF.mem_iff.2 hx)
  husks n hn := h.husks n (hH.mem_iff.2 hn)
  adrift x hx q hq := (h.adrift x (hF.mem_iff.2 hx) q hq).mono hH.subset
  rest i hi := (h.rest i hi).imp_left ((Forest.ids_perm hF).append (hH.map _)).mem_iff.1
  apart i hi :=
    ⟨(h.apart i hi).1, fun hm => (h.apart i hi).2 (((Forest.ids_perm hF).append (hH.map _)).mem_iff.2 hm)⟩
  next_le := h.next_le

end Keeps

/-! ## New nodes -/

/-- A tree whose top alone changes its link to the parent. -/
theorem Holds.reparent {q : Option NodeId} (h : s.Holds p t) (hn : t.ids.Nodup)
    (htop : s'.find? t.id = (s.find? t.id).map ({ · with parent := q }))
    (hrest : ∀ i ∈ t.ids, i ≠ t.id → s'.find? i = s.find? i) : s'.Holds q t := by
  rw [holds_iff] at h ⊢
  refine ⟨by rw [htop, h.1]; rfl, fun k hk => ?_⟩
  refine (h.2 k hk).congr fun i hi => hrest i (Tree.ids_subset_of_mem_kids hk hi) ?_
  rintro rfl
  rw [Tree.ids_eq, List.nodup_cons] at hn
  exact hn.1 (List.mem_flatMap.2 ⟨k, hk, hi⟩)

theorem Keeps.ne_nextId (h : s.Keeps F H G) (hi : i ∈ Forest.ids F ++ H.map Node.id) : i ≠ s.nextId := by
  rintro rfl
  exact h.sound.fresh (h.mem_ids hi)

/-- A new node over loose trees. -/
theorem Keeps.grown {L : Forest} {ty : Option Ty} {l : Label} {hs bs os : List Tree} (h : s.Keeps (L ++ F) H G)
    (hlt : s.nextId.next?.isSome) (hL : L.map Prod.snd = hs ++ bs ++ os)
    (hfit : l.Fits hs.length bs.length os.length) :
    ((s.added { id := s.nextId, ty, kind := (Tree.node s.nextId ty l hs bs os).kind }).adopt s.nextId
      ((hs ++ bs ++ os).map Tree.id)).Keeps ((none, .node s.nextId ty l hs bs os) :: F) H G := by
  set n : Node := { id := s.nextId, ty, kind := (Tree.node s.nextId ty l hs bs os).kind } with hn
  set ks := hs ++ bs ++ os with hks
  have hfind : ∀ i, ((s.added n).adopt s.nextId (ks.map Tree.id)).find? i =
      (if i = s.nextId then some n else s.find? i).map fun m =>
        if i ∈ ks.map Tree.id then { m with parent := some s.nextId } else m := by
    intro i
    rw [find?_adopt, find?_added h.sound rfl]
  have hids : (Tree.node s.nextId ty l hs bs os).ids = s.nextId :: Forest.ids L := by
    rw [Tree.ids_eq, Forest.ids_eq_flatMap, hL]
    rfl
  have hnew : ∀ i ∈ Forest.ids (L ++ F) ++ H.map Node.id, i ≠ s.nextId := fun i hi => h.ne_nextId hi
  have hnd := h.nodup
  rw [Forest.ids_append, List.append_assoc, List.nodup_append'] at hnd
  have hkid : ∀ i ∈ ks.map Tree.id, i ∈ Forest.ids L := by
    intro i hi
    obtain ⟨k, hk, rfl⟩ := List.mem_map.1 hi
    rw [Forest.ids_eq_flatMap, hL]
    exact List.mem_flatMap.2 ⟨k, hk, k.id_mem_ids⟩
  -- outside the loose trees nothing changes
  have hother : ∀ i ∈ Forest.ids F ++ H.map Node.id, ((s.added n).adopt s.nextId (ks.map Tree.id)).find? i =
      s.find? i := by
    intro i hi
    rw [hfind, if_neg (hnew i (by rw [Forest.ids_append, List.append_assoc]; exact List.mem_append_right _ hi))]
    have : i ∉ ks.map Tree.id := fun hk => hnd.2.2 (hkid i hk) hi
    simp [this]
  refine ⟨?_, ?_, ?_, ?_, ?_, ?_, ?_, ?_, Nat.le_trans h.next_le (Nat.le_of_lt (nextId_lt_added (n := n) hlt))⟩
  · exact (h.sound.added rfl hlt).of_ids (ids_adopt _ _) rfl rfl
  · intro x hx
    rcases List.mem_cons.1 hx with rfl | hx
    · rw [Tree.fits_iff]
      refine ⟨hfit, fun k hk => ?_⟩
      have : k ∈ L.map Prod.snd := hL ▸ hk
      obtain ⟨x, hx, rfl⟩ := List.mem_map.1 this
      exact h.fits x (List.mem_append_left _ hx)
    · exact h.fits x (List.mem_append_right _ hx)
  · rw [Forest.ids_cons, hids, List.cons_append, List.cons_append, List.nodup_cons]
    refine ⟨fun hi => hnew s.nextId ?_ rfl, by simpa using h.nodup⟩
    simpa using hi
  · intro x hx
    rcases List.mem_cons.1 hx with rfl | hx
    · rw [holds_iff]
      refine ⟨?_, fun k hk => ?_⟩
      · have : s.nextId ∉ ks.map Tree.id := fun hk => hnew _ (by simp [hkid _ hk]) rfl
        rw [Tree.id_node, hfind, if_pos rfl]
        simp [this, hn, Tree.root]
      · have hkL : k ∈ L.map Prod.snd := hL ▸ hk
        obtain ⟨⟨q, k'⟩, hx, rfl⟩ := List.mem_map.1 hkL
        have hxF : (q, k') ∈ L ++ F := List.mem_append_left _ hx
        have hmem : ∀ i ∈ k'.ids, i ≠ s.nextId := fun i hi =>
          hnew i (List.mem_append_left _ (Forest.mem_ids_of_mem hxF hi))
        refine (h.holds _ hxF).reparent (h.tree_nodup hxF) ?_ fun i hi hne => ?_
        · rw [hfind, if_neg (hmem _ k'.id_mem_ids)]
          have : k'.id ∈ ks.map Tree.id := List.mem_map_of_mem hk
          simp [this]
        · rw [hfind, if_neg (hmem _ hi)]
          have : i ∉ ks.map Tree.id := by
            intro hk'
            obtain ⟨k₂, hk₂, rfl⟩ := List.mem_map.1 hk'
            have hL' : ((L.map Prod.snd).flatMap Tree.ids).Nodup := by
              rw [← Forest.ids_eq_flatMap]
              exact hnd.1
            exact hne (congrArg Tree.id (Tree.eq_of_mem_ids hL' hkL (hL ▸ hk₂) hi))
          simp [this]
    · exact (h.holds x (List.mem_append_right _ hx)).congr fun i hi =>
        hother i (List.mem_append_left _ (Forest.mem_ids_of_mem hx hi))
  · intro m hm
    rw [hother m.id (List.mem_append_right _ (List.mem_map_of_mem hm))]
    exact h.husks m hm
  · intro x hx q hq
    rcases List.mem_cons.1 hx with rfl | hx
    · simp at hq
    · exact h.adrift x (List.mem_append_right _ hx) q hq
  · intro i hi
    rw [ids_adopt, ids_added, List.mem_append, List.mem_singleton] at hi
    rw [Forest.ids_cons, hids]
    rcases hi with hi | rfl
    · exact (h.rest i hi).imp_left fun hi => by simp at hi ⊢; tauto
    · exact .inl (by simp [hn])
  · intro i hi
    obtain ⟨hlt', hout⟩ := h.apart i hi
    refine ⟨lt_nextId_added (n := n) hlt hlt', fun hm => ?_⟩
    rw [Forest.ids_cons, hids, List.cons_append, List.cons_append, List.mem_cons] at hm
    rcases hm with rfl | hm
    · exact absurd (NodeId.lt_iff.1 hlt') (Nat.lt_irrefl _)
    · exact hout (by simpa using hm)

/-! ## A place of a tree -/

theorem holds_plug_frame {us : List Tree} :
    s.Holds none (C.plug (f.plug us)) ↔ (∀ n ∈ C.nodes f.id, s.find? n.id = some n) ∧
      s.find? f.id = some { id := f.id, parent := C.parent, ty := f.ty, kind := f.kind (us.map Tree.id) } ∧
      (∀ k ∈ f.before ++ f.after, s.Holds (some f.id) k) ∧ ∀ u ∈ us, s.Holds (some f.id) u := by
  rw [holds_plug, holds_iff]
  simp only [Frame.id_plug, Frame.kids_plug, Tree.root, Frame.ty_plug, Frame.kind_plug]
  refine and_congr_right fun _ => and_congr_right fun _ => ?_
  constructor
  · intro h
    exact ⟨fun k hk => h k (by simp only [List.mem_append] at hk ⊢; tauto), fun u hu => h u (by simp [hu])⟩
  · rintro ⟨h1, h2⟩ k hk
    simp only [List.mem_append] at hk h1
    rcases hk with (hk | hk) | hk
    · exact h1 k (.inl hk)
    · exact h2 k hk
    · exact h1 k (.inr hk)

theorem ids_plug_frame (us : List Tree) :
    (C.plug (f.plug us)).ids.Perm (Ctx.ids (f :: C) ++ us.flatMap Tree.ids) := by
  refine (Ctx.ids_plug C _).trans ?_
  rw [Tree.ids_eq, Frame.id_plug, Frame.kids_plug, Ctx.ids]
  simp only [List.flatMap_append, List.perm_iff_count, List.count_append, List.count_cons]
  intro a
  omega

/-- What is in a place of a tree is exchanged, and nothing else around the place changes. -/
theorem Holds.refill {us vs : List Tree} (h : s.Holds none (C.plug (f.plug us))) (hn : (Ctx.ids (f :: C)).Nodup)
    (htop : s'.find? f.id = (s.find? f.id).map ({ · with kind := f.kind (vs.map Tree.id) }))
    (hctx : ∀ i ∈ Ctx.ids (f :: C), i ≠ f.id → s'.find? i = s.find? i) (hvs : ∀ v ∈ vs, s'.Holds (some f.id) v) :
    s'.Holds none (C.plug (f.plug vs)) := by
  obtain ⟨hC, hf, hsides, -⟩ := holds_plug_frame.1 h
  rw [Ctx.ids, List.nodup_cons] at hn
  refine holds_plug_frame.2 ⟨fun n hnC => ?_, ?_, fun k hk => ?_, hvs⟩
  · have hnC' : n.id ∈ C.ids := by
      rw [← Ctx.map_id_nodes C f.id]
      exact List.mem_map_of_mem hnC
    rw [hctx n.id (by simp [Ctx.ids, hnC']), hC n hnC]
    rintro he
    exact hn.1 (he ▸ List.mem_append_right _ hnC')
  · rw [htop, hf]
    rfl
  · refine (hsides k hk).congr fun i hi => hctx i ?_ ?_
    · exact List.mem_cons_of_mem _ (List.mem_append_left _ (List.mem_flatMap.2 ⟨k, hk, hi⟩))
    · rintro rfl
      exact hn.1 (List.mem_append_left _ (List.mem_flatMap.2 ⟨k, hk, hi⟩))

/-- What is in a place of a tree is exchanged with loose trees; what is loose then has no parent. -/
theorem Keeps.refilled (L L' : Forest) (us vs : List Tree)
    (h : s.Keeps ((none, C.plug (f.plug us)) :: (L ++ F)) H G)
    (hperm : (vs ++ L'.map Prod.snd).Perm (us ++ L.map Prod.snd)) (hfit : (f.plug vs).Fits)
    (hloose : ∀ x ∈ L', x.1 = none) (hs' : s'.Sound) (hids : s'.ids = s.ids) (hnext : s'.nextId = s.nextId)
    (htop : s'.find? f.id = (s.find? f.id).map ({ · with kind := f.kind (vs.map Tree.id) }))
    (hin : ∀ v ∈ vs, s'.find? v.id = (s.find? v.id).map ({ · with parent := some f.id }))
    (hout : ∀ x ∈ L', s'.find? x.2.id = (s.find? x.2.id).map ({ · with parent := x.1 }))
    (hother : ∀ i, i ≠ f.id → i ∉ (vs ++ L'.map Prod.snd).map Tree.id → s'.find? i = s.find? i) :
    s'.Keeps ((none, C.plug (f.plug vs)) :: (L' ++ F)) H G := by
  have hmain : (none, C.plug (f.plug us)) ∈ (none, C.plug (f.plug us)) :: (L ++ F) := List.mem_cons_self
  obtain ⟨-, -, -, hus⟩ := holds_plug_frame.1 (h.holds _ hmain)
  -- the same identities, in another order
  have hall : (Ctx.ids (f :: C) ++ (vs ++ L'.map Prod.snd).flatMap Tree.ids ++
      (Forest.ids F ++ H.map Node.id)).Perm
      (Forest.ids ((none, C.plug (f.plug us)) :: (L ++ F)) ++ H.map Node.id) := by
    have h1 := hperm.flatMap_right Tree.ids
    have h2 := ids_plug_frame (C := C) (f := f) us
    rw [List.perm_iff_count] at h1 h2 ⊢
    intro a
    have := h1 a
    have := h2 a
    simp only [Forest.ids_cons, Forest.ids_append, List.flatMap_append, List.count_append,
      Forest.ids_eq_flatMap (F := L)] at *
    omega
  have hnew : (Forest.ids ((none, C.plug (f.plug vs)) :: (L' ++ F)) ++ H.map Node.id).Perm
      (Forest.ids ((none, C.plug (f.plug us)) :: (L ++ F)) ++ H.map Node.id) := by
    refine List.Perm.trans ?_ hall
    have h2 := ids_plug_frame (C := C) (f := f) vs
    rw [List.perm_iff_count] at h2 ⊢
    intro a
    have := h2 a
    simp only [Forest.ids_cons, Forest.ids_append, List.flatMap_append, List.count_append,
      Forest.ids_eq_flatMap (F := L')] at *
    omega
  have hnd := hall.nodup_iff.2 h.nodup
  rw [List.nodup_append', List.nodup_append'] at hnd
  obtain ⟨⟨hndC, hndM, hCM⟩, -, hMF⟩ := hnd
  have hmoved : ∀ i ∈ (vs ++ L'.map Prod.snd).map Tree.id, i ∈ (vs ++ L'.map Prod.snd).flatMap Tree.ids := by
    intro i hi
    obtain ⟨k, hk, rfl⟩ := List.mem_map.1 hi
    exact List.mem_flatMap.2 ⟨k, hk, k.id_mem_ids⟩
  have hfid : f.id ∈ Ctx.ids (f :: C) := List.mem_cons_self
  have hfix : ∀ i ∈ Forest.ids F ++ H.map Node.id, s'.find? i = s.find? i := by
    intro i hi
    refine hother i ?_ fun hm => hMF (List.mem_append_right _ (hmoved i hm)) hi
    rintro rfl
    exact hMF (List.mem_append_left _ hfid) hi
  have hctx : ∀ i ∈ Ctx.ids (f :: C), i ≠ f.id → s'.find? i = s.find? i := fun i hi hne =>
    hother i hne fun hm => hCM hi (hmoved i hm)
  -- a moved tree changes at its top only
  have hmove : ∀ k ∈ vs ++ L'.map Prod.snd, ∀ q, s'.find? k.id = (s.find? k.id).map ({ · with parent := q }) →
      s'.Holds q k := by
    intro k hk q hq
    obtain ⟨p, hp⟩ : ∃ p, s.Holds p k := by
      rcases List.mem_append.1 (hperm.mem_iff.1 hk) with hk | hk
      · exact ⟨_, hus k hk⟩
      · obtain ⟨x, hx, rfl⟩ := List.mem_map.1 hk
        exact ⟨_, h.holds x (by simp [hx])⟩
    have hkn : k.ids.Nodup := by
      obtain ⟨xs, ys, he⟩ := List.append_of_mem hk
      rw [he, List.flatMap_append, List.flatMap_cons, List.nodup_append', List.nodup_append'] at hndM
      exact hndM.2.1.1
    refine hp.reparent hkn hq fun i hi hne => hother i ?_ fun hm => ?_
    · rintro rfl
      exact hCM hfid (List.mem_flatMap.2 ⟨k, hk, hi⟩)
    · obtain ⟨k₂, hk₂, rfl⟩ := List.mem_map.1 hm
      exact hne (congrArg Tree.id (Tree.eq_of_mem_ids hndM hk hk₂ hi))
  refine ⟨hs', ?_, hnew.nodup_iff.2 h.nodup, ?_, ?_, ?_, ?_, ?_, hnext ▸ h.next_le⟩
  · intro x hx
    rcases List.mem_cons.1 hx with rfl | hx
    · exact Ctx.plug_fits (h.fits _ hmain) hfit
    · rcases List.mem_append.1 hx with hx | hx
      · have hx2 : x.2 ∈ us ++ L.map Prod.snd := hperm.mem_iff.1 (List.mem_append_right _ (List.mem_map_of_mem hx))
        rcases List.mem_append.1 hx2 with hx2 | hx2
        · exact (Ctx.fits_of_plug (h.fits _ hmain)).kid (by simp [hx2])
        · obtain ⟨y, hy, hyx⟩ := List.mem_map.1 hx2
          exact hyx ▸ h.fits y (by simp [hy])
      · exact h.fits x (by simp [hx])
  · intro x hx
    rcases List.mem_cons.1 hx with rfl | hx
    · exact (h.holds _ hmain).refill hndC htop hctx fun v hv => hmove v (List.mem_append_left _ hv) _ (hin v hv)
    · rcases List.mem_append.1 hx with hx | hx
      · exact hmove x.2 (List.mem_append_right _ (List.mem_map_of_mem hx)) _ (hout x hx)
      · exact (h.holds x (by simp [hx])).congr fun i hi =>
          hfix i (List.mem_append_left _ (Forest.mem_ids_of_mem hx hi))
  · intro n hn
    rw [hfix n.id (List.mem_append_right _ (List.mem_map_of_mem hn))]
    exact h.husks n hn
  · intro x hx q hq
    rcases List.mem_cons.1 hx with rfl | hx
    · simp at hq
    · rcases List.mem_append.1 hx with hx | hx
      · simp [hloose x hx] at hq
      · exact h.adrift x (by simp [hx]) q hq
  · intro i hi
    exact (h.rest i (hids ▸ hi)).imp_left hnew.mem_iff.2
  · intro i hi
    exact ⟨hnext ▸ (h.apart i hi).1, fun hm => (h.apart i hi).2 (hnew.mem_iff.1 hm)⟩

end Store

end ContractTree
