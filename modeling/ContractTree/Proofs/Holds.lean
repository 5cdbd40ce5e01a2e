import ContractTree.Proofs.Tree
import ContractTree.Store.Lemmas
import ContractTree.Store.Search
import ContractTree.Store.Verify

/-!
Trees in a store. `Store.Holds s p t` says that the store has the nodes of `t`, with the top below `p`. The check
of a store finds no flaw exactly when the store holds a tree without repetitions whose top has no parent
(`Store.verify_iff`), and such a tree is read off the store by `Store.tree?` and by `Store.preorder`.

`Store.Sound` is what every store has that is made by edits: identities are distinct and below the counter.
-/

namespace ContractTree.Store

/-- Identities are distinct, and the counter is above every identity that is registered or was replaced. -/
structure Sound (s : Store) : Prop where
  nodup : s.ids.Nodup
  below : ∀ i ∈ s.ids, i < s.nextId
  replaced : ∀ r ∈ s.replacements, r.1 < s.nextId

/-- The store has the nodes of the tree, with the top below `parent`. -/
def Holds (s : Store) (parent : Option NodeId) (t : Tree) : Prop :=
  ∀ n ∈ t.nodes parent, s.find? n.id = some n

/-- The store that has the nodes of a tree and no others. -/
def ofTree (t : Tree) (nextId : NodeId) : Store := { nextId, nodes := t.nodes none }

variable {s s' : Store} {p : Option NodeId} {t : Tree} {C : Ctx}

theorem holds_iff : s.Holds p t ↔ s.find? t.id = some (t.root p) ∧ ∀ k ∈ t.kids, s.Holds (some t.id) k := by
  unfold Holds
  rw [Tree.nodes_eq]
  simp only [List.mem_cons, List.mem_flatMap, forall_eq_or_imp, Tree.root_id]
  constructor
  · rintro ⟨h, h'⟩
    exact ⟨h, fun k hk n hn => h' n ⟨k, hk, hn⟩⟩
  · rintro ⟨h, h'⟩
    exact ⟨h, fun n ⟨k, hk, hn⟩ => h' k hk n hn⟩

theorem Holds.top (h : s.Holds p t) : s.find? t.id = some (t.root p) := (holds_iff.1 h).1

theorem Holds.kid {k : Tree} (h : s.Holds p t) (hk : k ∈ t.kids) : s.Holds (some t.id) k := (holds_iff.1 h).2 k hk

theorem Holds.mem_ids {i : NodeId} (h : s.Holds p t) (hi : i ∈ t.ids) : i ∈ s.ids := by
  rw [← Tree.map_id_nodes p, List.mem_map] at hi
  obtain ⟨n, hn, rfl⟩ := hi
  rw [ids, List.mem_map]
  exact ⟨n, mem_of_find? (h n hn), rfl⟩

/-- A store that agrees on the identities of a tree holds it too. -/
theorem Holds.congr (h : s.Holds p t) (hi : ∀ i ∈ t.ids, s'.find? i = s.find? i) : s'.Holds p t := by
  intro n hn
  rw [hi n.id (by rw [← Tree.map_id_nodes p]; exact List.mem_map_of_mem hn)]
  exact h n hn

theorem holds_plug :
    s.Holds none (C.plug t) ↔ (∀ n ∈ C.nodes t.id, s.find? n.id = some n) ∧ s.Holds C.parent t := by
  unfold Holds
  constructor
  · intro h
    exact ⟨fun n hn => h n ((Ctx.mem_nodes_plug C t n).2 (.inl hn)),
      fun n hn => h n ((Ctx.mem_nodes_plug C t n).2 (.inr hn))⟩
  · rintro ⟨h1, h2⟩ n hn
    exact ((Ctx.mem_nodes_plug C t n).1 hn).elim (h1 n) (h2 n)

theorem Holds.inside (h : s.Holds none (C.plug t)) : s.Holds C.parent t := (holds_plug.1 h).2

theorem Holds.length_le (h : s.Holds p t) (hn : t.ids.Nodup) : t.ids.length ≤ s.size := by
  have := List.Nodup.length_le_of_subset hn fun i hi => h.mem_ids hi
  simpa [ids, size] using this

/-! ## What is seen of a tree -/

theorem Holds.kind? (h : s.Holds p t) : s.kind? t.id = some t.kind := by
  rw [Store.kind?, h.top]
  rfl

theorem Holds.parent? (h : s.Holds p t) : s.parent? t.id = p := by
  rw [Store.parent?, h.top]
  rfl

theorem Holds.ty? (h : s.Holds p t) : s.ty? t.id = t.ty := by
  rw [Store.ty?, h.top]
  rfl

theorem Holds.children (h : s.Holds p t) (hf : t.Fits) : s.children t.id = t.kids.map Tree.id := by
  rw [Store.children, h.top]
  exact hf.children_kind

/-- A node of a tree is the top of a part of it. -/
theorem Holds.exists_of_mem_nodes {n : Node} (h : s.Holds none t) (hn : n ∈ t.nodes none) :
    ∃ (C : Ctx) (u : Tree), C.plug u = t ∧ n = u.root C.parent := by
  have hid : n.id ∈ t.ids := by
    rw [← Tree.map_id_nodes none t]
    exact List.mem_map_of_mem hn
  obtain ⟨C, u, rfl, hu⟩ := Tree.exists_place hid
  have h1 := h n hn
  rw [← hu, (Holds.inside h).top, Option.some.injEq] at h1
  exact ⟨C, u, rfl, h1.symm⟩

/-- What a node of a tree lists has that node as its parent. -/
theorem Holds.parent?_of_child {n : Node} {i : NodeId} (h : s.Holds none t) (hf : t.Fits) (hn : n ∈ t.nodes none)
    (hi : i ∈ n.kind.children) : i ∈ s.ids ∧ s.parent? i = some n.id := by
  obtain ⟨C, u, rfl, rfl⟩ := h.exists_of_mem_nodes hn
  have hu : s.Holds C.parent u := h.inside
  rw [Tree.root_kind, (Ctx.fits_of_plug hf).children_kind] at hi
  obtain ⟨k, hk, rfl⟩ := List.mem_map.1 hi
  exact ⟨(hu.kid hk).mem_ids k.id_mem_ids, (hu.kid hk).parent?⟩

/-- The tree below a node, as far as `fuel` levels go. -/
def treeWithin (s : Store) : Nat → NodeId → Option Tree
  | 0, _ => none
  | fuel + 1, id => do
    let n ← s.find? id
    let heads ← n.kind.heads.mapM (treeWithin s fuel)
    let body ← n.kind.body.mapM (treeWithin s fuel)
    let orelse ← n.kind.orelse.mapM (treeWithin s fuel)
    return .node id n.ty n.kind.label heads body orelse

/-- The tree below a node, if the links from it lead to registered nodes and end. -/
def tree? (s : Store) (id : NodeId) : Option Tree := s.treeWithin s.size id

theorem mapM_treeWithin {f : NodeId → Option Tree} {ts : List Tree} (h : ∀ t ∈ ts, f t.id = some t) :
    (ts.map Tree.id).mapM f = some ts := by
  induction ts with
  | nil => rfl
  | cons t ts ih =>
    rw [List.map_cons, List.mapM_cons, h t List.mem_cons_self, ih fun u hu => h u (List.mem_cons_of_mem _ hu)]
    rfl

theorem length_ids_kid_lt {k : Tree} (hk : k ∈ t.kids) : k.ids.length < t.ids.length := by
  obtain ⟨f, rfl⟩ := Tree.exists_frame hk
  have := (Ctx.ids_plug [f] k).length_eq
  rw [Ctx.plug_cons, Ctx.plug_nil] at this
  rw [this, List.length_append]
  simp only [Ctx.ids, List.length_cons]
  omega

theorem Holds.treeWithin_eq {fuel : Nat} (h : s.Holds p t) (hf : t.Fits) (hfuel : t.ids.length ≤ fuel) :
    s.treeWithin fuel t.id = some t := by
  induction t generalizing p fuel with
  | step t ih =>
    obtain ⟨i, ty, l, hs, bs, os⟩ := t
    cases fuel with
    | zero => simp [Tree.ids] at hfuel
    | succ fuel =>
      have hkids : ∀ k ∈ hs ++ bs ++ os, s.treeWithin fuel k.id = some k := by
        intro k hk
        have := length_ids_kid_lt (t := .node i ty l hs bs os) hk
        exact ih k hk (h.kid hk) (hf.kid hk) (by omega)
      obtain ⟨h0, h1, h2, h3⟩ := Label.parts_kind hf.top
      rw [← Tree.kind] at h0 h1 h2 h3
      rw [treeWithin, h.top]
      simp only [Tree.root, Option.bind_eq_bind, Option.bind_some, h0, h1, h2, h3]
      rw [mapM_treeWithin fun k hk => hkids k (by simp [List.mem_append, show k ∈ hs from hk]),
        mapM_treeWithin fun k hk => hkids k (by simp [List.mem_append, show k ∈ bs from hk]),
        mapM_treeWithin fun k hk => hkids k (by simp [List.mem_append, show k ∈ os from hk])]
      rfl

theorem Holds.tree?_eq (h : s.Holds p t) (hf : t.Fits) (hn : t.ids.Nodup) : s.tree? t.id = some t :=
  h.treeWithin_eq hf (h.length_le hn)

/-- A node where a store holds a tree determines the tree. -/
theorem Holds.unique {q : Option NodeId} {u : Tree} (h : s.Holds p t) (hf : t.Fits) (hn : t.ids.Nodup)
    (h' : s.Holds q u) (hf' : u.Fits) (hn' : u.ids.Nodup) (hid : t.id = u.id) : t = u :=
  Option.some.inj ((h.tree?_eq hf hn).symm.trans (hid ▸ h'.tree?_eq hf' hn'))

theorem Holds.preorderWithin_eq {fuel : Nat} (h : s.Holds p t) (hf : t.Fits) (hfuel : t.ids.length ≤ fuel) :
    s.preorderWithin fuel t.id = t.nodes p := by
  induction t generalizing p fuel with
  | step t ih =>
    cases fuel with
    | zero => simp [Tree.ids_eq t] at hfuel
    | succ fuel =>
      rw [preorderWithin, h.top, Tree.nodes_eq]
      simp only [Node.children, Tree.root_kind, hf.children_kind, List.flatMap_map]
      congr 1
      rw [List.flatMap_congr]
      intro k hk
      have := length_ids_kid_lt hk
      exact ih k hk (h.kid hk) (hf.kid hk) (by omega)

theorem Holds.preorder_eq (h : s.Holds p t) (hf : t.Fits) (hn : t.ids.Nodup) : s.preorder t.id = t.nodes p :=
  h.preorderWithin_eq hf (h.length_le hn)

/-- A registered node over trees that the store holds is a tree. -/
theorem holds_node {i : NodeId} {n : Node} {hs bs os : List Tree} (hn : s.find? i = some n)
    (hh : hs.map Tree.id = n.kind.heads) (hb : bs.map Tree.id = n.kind.body) (ho : os.map Tree.id = n.kind.orelse)
    (hkids : ∀ k ∈ hs ++ bs ++ os, k.Fits ∧ s.Holds (some i) k) :
    (Tree.node i n.ty n.kind.label hs bs os).Fits ∧ s.Holds n.parent (.node i n.ty n.kind.label hs bs os) := by
  have hkind : n.kind.label.kind (hs.map Tree.id) (bs.map Tree.id) (os.map Tree.id) = n.kind := by
    rw [hh, hb, ho, Kind.kind_label]
  constructor
  · rw [Tree.fits_iff]
    refine ⟨?_, fun k hk => (hkids k hk).1⟩
    have := n.kind.fits
    rw [← hh, ← hb, ← ho] at this
    simpa using this
  · rw [holds_iff]
    refine ⟨?_, fun k hk => (hkids k hk).2⟩
    simp only [Tree.id_node, Tree.root, Tree.kind, Tree.label_node, Tree.heads_node, Tree.body_node,
      Tree.orelse_node, Tree.ty_node, hkind]
    rw [hn, ← id_of_find? hn]

/-! ## The check of a store -/

theorem checkChildren_eq_ok_iff (owner : NodeId) (ids : List NodeId) :
    s.checkChildren owner ids = .ok () ↔ ∀ i ∈ ids, ∃ n, s.find? i = some n ∧ n.parent = some owner := by
  induction ids with
  | nil => simp [checkChildren]
  | cons i ids ih =>
    rw [checkChildren, List.forall_mem_cons]
    cases hi : s.find? i with
    | none => simp
    | some n =>
      by_cases hp : n.parent = some owner
      · simp [hp, ih]
      · simp [hp]

/-- What the check finds below the nodes of the stack are trees that do not share a node. -/
theorem exists_trees_of_checkFrom (unvisited stack : List NodeId) (hu : unvisited.Nodup)
    (hsub : unvisited ⊆ s.ids) (h : s.checkFrom unvisited stack = .ok ()) :
    ∃ ts : List Tree, ts.map Tree.id = stack ∧ (∀ t ∈ ts, t.Fits ∧ s.Holds (s.parent? t.id) t) ∧
      (ts.flatMap Tree.ids).Nodup ∧ ts.flatMap Tree.ids ⊆ unvisited := by
  fun_induction checkFrom s unvisited stack with
  | case1 => exact ⟨[], by simp⟩
  | case2 unvisited i stack hi e he => simp at h
  | case3 unvisited i stack hi hc ih =>
    obtain ⟨ts, hmap, hts, hnd, hsub'⟩ := ih (hu.erase i) (fun j hj => hsub (List.mem_of_mem_erase hj)) h
    obtain ⟨n, hn⟩ : ∃ n, s.find? i = some n := by
      rw [← Option.isSome_iff_exists]
      exact contains_iff.2 (hsub hi)
    have hch : s.children i = n.kind.heads ++ n.kind.body ++ n.kind.orelse := by
      simp [Store.children, hn, Node.children, Kind.children_eq]
    obtain ⟨cs, rest, rfl, hcs, hrest⟩ := List.map_eq_append_iff.1 hmap
    -- the children were stacked in reverse
    have hcs' : cs.reverse.map Tree.id = n.kind.heads ++ n.kind.body ++ n.kind.orelse := by
      rw [List.map_reverse, hcs, List.reverse_reverse, hch]
    obtain ⟨hb, os, hcs2, hhb, hos⟩ := List.map_eq_append_iff.1 hcs'
    obtain ⟨hds, bs, rfl, hhs, hbs⟩ := List.map_eq_append_iff.1 hhb
    have hkids : ∀ k ∈ hds ++ bs ++ os, k.Fits ∧ s.Holds (some i) k := by
      intro k hk
      have hk' : k ∈ cs := by rwa [← hcs2, List.mem_reverse] at hk
      have hki : k.id ∈ s.children i := by
        rw [hch, ← hcs']
        exact List.mem_map_of_mem (List.mem_reverse.2 hk')
      obtain ⟨m, hm, hmp⟩ := (checkChildren_eq_ok_iff i _).1 hc k.id hki
      have := hts k (List.mem_append_left _ hk')
      rw [Store.parent?, hm] at this
      exact ⟨this.1, by simpa [hmp] using this.2⟩
    let t : Tree := .node i n.ty n.kind.label hds bs os
    have hperm : (t.ids ++ rest.flatMap Tree.ids).Perm (i :: ((cs ++ rest).flatMap Tree.ids)) := by
      rw [Tree.ids_eq, List.cons_append, List.flatMap_append]
      refine List.Perm.cons i (List.Perm.append_right _ ?_)
      show ((hds ++ bs ++ os).flatMap Tree.ids).Perm _
      rw [← hcs2]
      exact List.Perm.flatMap_right _ (List.reverse_perm cs)
    refine ⟨t :: rest, by simp [t, hrest], ?_, ?_, ?_⟩
    · intro u hu
      rcases List.mem_cons.1 hu with rfl | hu
      · rw [show s.parent? t.id = n.parent by simp [t, Store.parent?, hn]]
        exact holds_node hn hhs hbs hos hkids
      · exact hts u (List.mem_append_right _ hu)
    · rw [List.flatMap_cons, hperm.nodup_iff, List.nodup_cons]
      exact ⟨fun hi' => (List.Nodup.not_mem_erase hu) (hsub' hi'), hnd⟩
    · rw [List.flatMap_cons]
      intro j hj
      rcases List.mem_cons.1 (hperm.mem_iff.1 hj) with rfl | hj
      · exact hi
      · exact List.mem_of_mem_erase (hsub' hj)
  | case4 unvisited i stack hi => simp at h

/-- The check passes over trees that do not share a node. -/
theorem checkFrom_of_trees (size : Nat) (ts : List Tree) (unvisited : List NodeId)
    (hsize : (ts.flatMap Tree.ids).length ≤ size) (hts : ∀ t ∈ ts, t.Fits ∧ ∃ p, s.Holds p t)
    (hnd : (ts.flatMap Tree.ids).Nodup) (hsub : ts.flatMap Tree.ids ⊆ unvisited) :
    s.checkFrom unvisited (ts.map Tree.id) = .ok () := by
  induction size generalizing ts unvisited with
  | zero =>
    cases ts with
    | nil => rw [List.map_nil, checkFrom]
    | cons t ts =>
      rw [List.flatMap_cons, Tree.ids_eq] at hsize
      simp at hsize
  | succ size ih =>
    cases ts with
    | nil => rw [List.map_nil, checkFrom]
    | cons t ts =>
      obtain ⟨hf, p, hh⟩ := hts t List.mem_cons_self
      rw [List.flatMap_cons, Tree.ids_eq, List.cons_append] at hsize hnd hsub
      have hmem : t.id ∈ unvisited := hsub List.mem_cons_self
      have hc : s.checkChildren t.id (s.children t.id) = .ok () := by
        rw [checkChildren_eq_ok_iff, hh.children hf]
        intro i hi
        obtain ⟨k, hk, rfl⟩ := List.mem_map.1 hi
        exact ⟨_, (hh.kid hk).top, rfl⟩
      rw [List.map_cons, checkFrom, dif_pos hmem, hc]
      simp only
      rw [hh.children hf, ← List.map_reverse, ← List.map_append]
      have hperm : ((t.kids.reverse ++ ts).flatMap Tree.ids).Perm
          (t.kids.flatMap Tree.ids ++ ts.flatMap Tree.ids) := by
        rw [List.flatMap_append]
        exact List.Perm.append_right _ (List.Perm.flatMap_right _ (List.reverse_perm _))
      apply ih
      · rw [hperm.length_eq]
        simp only [List.length_cons] at hsize
        omega
      · intro u hu
        rcases List.mem_append.1 hu with hu | hu
        · have hu := List.mem_reverse.1 hu
          exact ⟨hf.kid hu, _, hh.kid hu⟩
        · exact hts u (List.mem_cons_of_mem _ hu)
      · exact hperm.nodup_iff.2 (List.nodup_cons.1 hnd).2
      · intro j hj
        have hj := hperm.mem_iff.1 hj
        have hne : j ≠ t.id := fun he => (List.nodup_cons.1 hnd).1 (he ▸ hj)
        exact (List.mem_erase_of_ne hne).2 (hsub (List.mem_cons_of_mem _ hj))

/-- The check finds no flaw in a tree that the store holds. -/
theorem Holds.verify (h : s.Holds none t) (hf : t.Fits) (hn : t.ids.Nodup) : s.verify t.id = .ok () := by
  unfold Store.verify node
  rw [h.top]
  exact checkFrom_of_trees _ [t] s.ids (Nat.le_refl _) (by simpa using ⟨hf, none, h⟩) (by simpa using hn)
    (by simpa using show t.ids ⊆ s.ids from fun i hi => h.mem_ids hi)

/-- **The check is exact.** A store has no flaw below `root` exactly when it holds a tree there, with no node in
two places and no parent above. -/
theorem verify_iff (hs : s.ids.Nodup) (root : NodeId) :
    s.verify root = .ok () ↔ ∃ t : Tree, t.id = root ∧ t.Fits ∧ t.ids.Nodup ∧ s.Holds none t := by
  constructor
  · intro h
    unfold verify node at h
    cases hr : s.find? root with
    | none => simp [hr, bind, Except.bind] at h
    | some n =>
      cases hp : n.parent with
      | some p => simp [hr, hp, bind, Except.bind] at h
      | none =>
        simp only [hr, hp, bind, Except.bind] at h
        obtain ⟨ts, hmap, hts, hnd, -⟩ := exists_trees_of_checkFrom s.ids [root] hs (fun _ h => h) h
        obtain ⟨t, rfl, hid⟩ : ∃ t, ts = [t] ∧ t.id = root := by
          rcases ts with _ | ⟨t, _ | ⟨u, ts⟩⟩ <;> simp_all
        obtain ⟨hf, hh⟩ := hts t List.mem_cons_self
        rw [hid, Store.parent?, hr, Option.bind_some, hp] at hh
        exact ⟨t, hid, hf, by simpa using hnd, hh⟩
  · rintro ⟨t, rfl, hf, hnd, hh⟩
    exact hh.verify hf hnd

end ContractTree.Store
