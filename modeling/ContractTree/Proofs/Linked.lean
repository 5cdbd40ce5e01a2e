import ContractTree.Proofs.Holds

/-!
Well-linked nodes. A path names, step by step, places in lists of children, and `Store.Reaches` says where it leads
from a node. A node is well-linked (`Store.Linked`) when every node that is reached from it is registered, every
child that such a node lists names it as its parent, and no node is reached by two paths. A node is well-linked
exactly when the store holds a tree there (`Store.linked_iff`): the paths in the store are then the paths in the
tree, and a path that meets no node twice is no longer than the store.
-/

namespace ContractTree

namespace Tree

/-- The tree at the end of a path. -/
def at? : Tree → List Nat → Option Tree
  | t, [] => some t
  | t, k :: path => t.kids[k]?.bind (at? · path)

variable {t u v : Tree} {i : NodeId}

theorem at?_cons (k : Nat) (path : List Nat) : t.at? (k :: path) = t.kids[k]?.bind (at? · path) := rfl

theorem mem_ids_of_at? {path : List Nat} (h : t.at? path = some u) : u.id ∈ t.ids := by
  induction path generalizing t with
  | nil =>
    obtain rfl := Option.some.inj h
    exact t.id_mem_ids
  | cons k path ih =>
    obtain ⟨kid, hk, h⟩ := Option.bind_eq_some_iff.1 h
    exact ids_subset_of_mem_kids (List.mem_of_getElem? hk) (ih h)

theorem exists_at?_of_mem (h : i ∈ t.ids) : ∃ path u, t.at? path = some u ∧ u.id = i := by
  induction t with
  | step t ih =>
    rw [ids_eq, List.mem_cons, List.mem_flatMap] at h
    rcases h with rfl | ⟨k, hk, hi⟩
    · exact ⟨[], t, rfl, rfl⟩
    · obtain ⟨path, u, hu, rfl⟩ := ih k hk hi
      obtain ⟨n, hn⟩ := List.mem_iff_getElem?.1 hk
      exact ⟨n :: path, u, by rw [at?_cons, hn]; exact hu, rfl⟩

/-- No identity is repeated in a tree exactly when no two paths lead to one identity. -/
theorem nodup_ids_iff : t.ids.Nodup ↔
    ∀ p q u v, t.at? p = some u → t.at? q = some v → u.id = v.id → p = q := by
  constructor
  · intro hn p
    induction p generalizing t with
    | nil =>
      intro q u v hu hv he
      obtain rfl := Option.some.inj hu
      cases q with
      | nil => rfl
      | cons k q =>
        -- the top is not below one of its children
        obtain ⟨kid, hk, hv⟩ := Option.bind_eq_some_iff.1 hv
        rw [ids_eq, List.nodup_cons] at hn
        exact absurd (List.mem_flatMap.2 ⟨kid, List.mem_of_getElem? hk, he ▸ mem_ids_of_at? hv⟩) hn.1
    | cons k p ih =>
      intro q u v hu hv he
      obtain ⟨kid, hk, hu⟩ := Option.bind_eq_some_iff.1 hu
      have hkid := List.mem_of_getElem? hk
      cases q with
      | nil =>
        obtain rfl := Option.some.inj hv
        rw [ids_eq, List.nodup_cons] at hn
        exact absurd (List.mem_flatMap.2 ⟨kid, hkid, he ▸ mem_ids_of_at? hu⟩) hn.1
      | cons l q =>
        obtain ⟨kid', hl, hv⟩ := Option.bind_eq_some_iff.1 hv
        obtain rfl : k = l := by
          have hpair := (List.nodup_flatMap.1 (List.nodup_cons.1 (ids_eq t ▸ hn)).2).2
          obtain ⟨hk', rfl⟩ := List.getElem?_eq_some_iff.1 hk
          obtain ⟨hl', rfl⟩ := List.getElem?_eq_some_iff.1 hl
          rw [List.pairwise_iff_getElem] at hpair
          rcases Nat.lt_trichotomy k l with hlt | heq | hlt
          · exact absurd (he ▸ mem_ids_of_at? hv) (hpair k l hk' hl' hlt (mem_ids_of_at? hu))
          · exact heq
          · exact absurd (mem_ids_of_at? hu) (hpair l k hl' hk' hlt (he ▸ mem_ids_of_at? hv))
        obtain rfl := Option.some.inj (hk.symm.trans hl)
        rw [ih (nodup_kid hn hkid) q u v hu hv he]
  · intro h
    induction t with
    | step t ih =>
      have hpath : ∀ {k : Nat} {kid : Tree} {i : NodeId}, t.kids[k]? = some kid → i ∈ kid.ids →
          ∃ p u, t.at? (k :: p) = some u ∧ u.id = i := by
        intro k kid i hk hi
        obtain ⟨p, u, hu, rfl⟩ := exists_at?_of_mem hi
        exact ⟨p, u, by rw [at?_cons, hk]; exact hu, rfl⟩
      rw [ids_eq, List.nodup_cons, List.nodup_flatMap, List.pairwise_iff_getElem]
      refine ⟨fun hm => ?_, fun kid hkid => ih kid hkid fun p q u v hu hv he => ?_,
        fun k l hk hl hlt i hi hj => ?_⟩
      · obtain ⟨kid, hkid, hi⟩ := List.mem_flatMap.1 hm
        obtain ⟨k, hk⟩ := List.mem_iff_getElem?.1 hkid
        obtain ⟨p, u, hu, he⟩ := hpath hk hi
        have := h (k :: p) [] u t hu rfl he
        cases this
      · obtain ⟨k, hk⟩ := List.mem_iff_getElem?.1 hkid
        have := h (k :: p) (k :: q) u v (by rw [at?_cons, hk]; exact hu) (by rw [at?_cons, hk]; exact hv) he
        exact (List.cons.inj this).2
      · obtain ⟨p, u, hu, rfl⟩ := hpath (List.getElem?_eq_getElem hk) hi
        obtain ⟨q, v, hv, he⟩ := hpath (List.getElem?_eq_getElem hl) hj
        have := (List.cons.inj (h (k :: p) (l :: q) u v hu hv he.symm)).1
        omega

end Tree

namespace Store

/-- The path leads from `top` to `i`: each step of it is a place in the list of children of the node reached so
far. -/
inductive Reaches (s : Store) : NodeId → List Nat → NodeId → Prop
  | here (i : NodeId) : Reaches s i [] i
  | down {top next i : NodeId} {k : Nat} {path : List Nat} (hk : (s.children top)[k]? = some next)
      (h : Reaches s next path i) : Reaches s top (k :: path) i

/-- What is reached from the node is registered, children and parents agree there, and no node is reached twice. -/
structure Linked (s : Store) (top : NodeId) : Prop where
  registered : ∀ path i, s.Reaches top path i → i ∈ s.ids
  parents : ∀ path i, s.Reaches top path i → ∀ j ∈ s.children i, s.parent? j = some i
  once : ∀ p q i, s.Reaches top p i → s.Reaches top q i → p = q

variable {s : Store} {top i j : NodeId} {p : Option NodeId} {t : Tree} {path : List Nat}

theorem Reaches.append {q : List Nat} (h : s.Reaches top path i) (h' : s.Reaches i q j) :
    s.Reaches top (path ++ q) j := by
  induction h with
  | here => exact h'
  | down hk _ ih => exact .down hk (ih h')

theorem Holds.at? {u : Tree} (h : s.Holds p t) (hf : t.Fits) (hu : t.at? path = some u) :
    u.Fits ∧ ∃ q, s.Holds q u := by
  induction path generalizing t p with
  | nil =>
    obtain rfl := Option.some.inj hu
    exact ⟨hf, p, h⟩
  | cons k path ih =>
    obtain ⟨kid, hk, hu⟩ := Option.bind_eq_some_iff.1 hu
    have hmem := List.mem_of_getElem? hk
    exact ih (h.kid hmem) (hf.kid hmem) hu

/-- In a store that holds a tree, paths lead where they lead in the tree. -/
theorem Holds.reaches_iff (h : s.Holds p t) (hf : t.Fits) :
    s.Reaches t.id path i ↔ ∃ u, t.at? path = some u ∧ u.id = i := by
  induction path generalizing t p with
  | nil =>
    constructor
    · rintro ⟨⟩
      exact ⟨t, rfl, rfl⟩
    · rintro ⟨u, hu, rfl⟩
      obtain rfl := Option.some.inj hu
      exact .here _
  | cons k path ih =>
    have hch : (s.children t.id)[k]? = t.kids[k]?.map Tree.id := by rw [h.children hf, List.getElem?_map]
    constructor
    · rintro (_ | ⟨hk, hr⟩)
      rw [hch, Option.map_eq_some_iff] at hk
      obtain ⟨kid, hkid, rfl⟩ := hk
      have hmem := List.mem_of_getElem? hkid
      obtain ⟨u, hu, rfl⟩ := (ih (h.kid hmem) (hf.kid hmem)).1 hr
      exact ⟨u, by rw [Tree.at?_cons, hkid]; exact hu, rfl⟩
    · rintro ⟨u, hu, rfl⟩
      obtain ⟨kid, hkid, hu⟩ := Option.bind_eq_some_iff.1 hu
      have hmem := List.mem_of_getElem? hkid
      exact .down (by rw [hch, hkid]; rfl) ((ih (h.kid hmem) (hf.kid hmem)).2 ⟨u, hu, rfl⟩)

/-- The nodes of a tree are the nodes that are reached from its top. -/
theorem Holds.mem_ids_iff (h : s.Holds p t) (hf : t.Fits) : i ∈ t.ids ↔ ∃ path, s.Reaches t.id path i := by
  constructor
  · intro hi
    obtain ⟨path, u, hu⟩ := Tree.exists_at?_of_mem hi
    exact ⟨path, (h.reaches_iff hf).2 ⟨u, hu⟩⟩
  · rintro ⟨path, hr⟩
    obtain ⟨u, hu, rfl⟩ := (h.reaches_iff hf).1 hr
    exact Tree.mem_ids_of_at? hu

/-- The nodes on a path below a well-linked node are distinct. -/
theorem Linked.exists_nodes (h : s.Linked top) {q : List Nat} (hq : s.Reaches top q i) (hr : s.Reaches i path j) :
    ∃ l : List NodeId, l.Nodup ∧ l.length = path.length + 1 ∧ ∀ x ∈ l, ∃ r, s.Reaches top (q ++ r) x := by
  induction hr generalizing q with
  | here i => exact ⟨[i], by simp, rfl, by simpa using ⟨[], by simpa using hq⟩⟩
  | @down i next j k path hk hr ih =>
    have hnext : s.Reaches top (q ++ [k]) next := hq.append (.down hk (.here _))
    obtain ⟨l, hl, hlen, hmem⟩ := ih hnext
    refine ⟨i :: l, List.nodup_cons.2 ⟨fun hi => ?_, hl⟩, by simp [hlen], fun x hx => ?_⟩
    · obtain ⟨r, hr⟩ := hmem i hi
      have := congrArg List.length (h.once _ _ i hq hr)
      simp only [List.length_append, List.length_singleton] at this
      omega
    · rcases List.mem_cons.1 hx with rfl | hx
      · exact ⟨[], by simpa using hq⟩
      · obtain ⟨r, hr⟩ := hmem x hx
        exact ⟨k :: r, by simpa using hr⟩

/-- No path below a well-linked node is longer than the store. -/
theorem Linked.length_lt (h : s.Linked top) (hr : s.Reaches top path i) : path.length < s.size := by
  obtain ⟨l, hl, hlen, hmem⟩ := h.exists_nodes (.here top) hr
  have hsub : l ⊆ s.ids := fun x hx => (hmem x hx).elim fun r hr => h.registered _ x hr
  have := hl.length_le_of_subset hsub
  simp only [ids, List.length_map] at this
  rw [size]
  omega

/-- Trees for the nodes of a list are a list of trees. -/
theorem exists_trees {P : Tree → Prop} {l : List NodeId} (h : ∀ i ∈ l, ∃ t : Tree, t.id = i ∧ P t) :
    ∃ ts : List Tree, ts.map Tree.id = l ∧ ∀ t ∈ ts, P t := by
  induction l with
  | nil => exact ⟨[], rfl, by simp⟩
  | cons i l ih =>
    obtain ⟨t, rfl, ht⟩ := h i List.mem_cons_self
    obtain ⟨ts, rfl, hts⟩ := ih fun j hj => h j (List.mem_cons_of_mem _ hj)
    exact ⟨t :: ts, rfl, List.forall_mem_cons.2 ⟨ht, hts⟩⟩

/-- Where paths are bounded and meet registered nodes that agree with their children, there is a tree. -/
theorem exists_tree_of_reaches (fuel : Nat) (top : NodeId)
    (h : ∀ path i, s.Reaches top path i → path.length < fuel ∧ i ∈ s.ids ∧
      ∀ j ∈ s.children i, s.parent? j = some i) :
    ∃ t : Tree, t.id = top ∧ t.Fits ∧ s.Holds (s.parent? top) t := by
  induction fuel generalizing top with
  | zero => exact absurd (h [] top (.here top)).1 (Nat.not_lt_zero _)
  | succ fuel ih =>
    obtain ⟨-, hreg, hpar⟩ := h [] top (.here top)
    obtain ⟨n, hn⟩ := Option.isSome_iff_exists.1 (contains_iff.2 hreg)
    have hch : s.children top = n.kind.heads ++ n.kind.body ++ n.kind.orelse := by
      simp [Store.children, hn, Node.children, Kind.children_eq]
    have hkids : ∀ j ∈ s.children top, ∃ t : Tree, t.id = j ∧ t.Fits ∧ s.Holds (some top) t := by
      intro j hj
      obtain ⟨k, hk⟩ := List.mem_iff_getElem?.1 hj
      rw [← hpar j hj]
      refine ih j fun path i hr => ?_
      obtain ⟨hlt, hrest⟩ := h (k :: path) i (.down hk hr)
      exact ⟨by simpa using hlt, hrest⟩
    rw [hch] at hkids
    obtain ⟨hs, hhs, hhk⟩ := exists_trees fun j hj => hkids j (List.mem_append_left _ (List.mem_append_left _ hj))
    obtain ⟨bs, hbs, hbk⟩ := exists_trees fun j hj => hkids j (List.mem_append_left _ (List.mem_append_right _ hj))
    obtain ⟨os, hos, hok⟩ := exists_trees fun j hj => hkids j (List.mem_append_right _ hj)
    have hall : ∀ k ∈ hs ++ bs ++ os, k.Fits ∧ s.Holds (some top) k := by
      simpa only [List.forall_mem_append] using ⟨⟨hhk, hbk⟩, hok⟩
    rw [show s.parent? top = n.parent by rw [Store.parent?, hn]; rfl]
    exact ⟨_, rfl, holds_node hn hhs hbs hos hall⟩

/-- **A node is well-linked exactly when a tree hangs from it.** -/
theorem linked_iff : s.Linked top ↔ ∃ t : Tree, t.id = top ∧ t.Fits ∧ t.ids.Nodup ∧ s.Holds (s.parent? top) t := by
  constructor
  · intro h
    obtain ⟨t, rfl, hf, hh⟩ := exists_tree_of_reaches s.size top fun path i hr =>
      ⟨h.length_lt hr, h.registered path i hr, h.parents path i hr⟩
    refine ⟨t, rfl, hf, Tree.nodup_ids_iff.2 fun p q u v hu hv he => ?_, hh⟩
    exact h.once p q u.id ((hh.reaches_iff hf).2 ⟨u, hu, rfl⟩) ((hh.reaches_iff hf).2 ⟨v, hv, he.symm⟩)
  · rintro ⟨t, rfl, hf, hn, hh⟩
    refine ⟨fun path i hr => hh.mem_ids ((hh.mem_ids_iff hf).2 ⟨path, hr⟩), fun path i hr j hj => ?_,
      fun p q i hp hq => ?_⟩
    · obtain ⟨u, hu, rfl⟩ := (hh.reaches_iff hf).1 hr
      obtain ⟨hfu, q, hhu⟩ := hh.at? hf hu
      rw [hhu.children hfu] at hj
      obtain ⟨kid, hkid, rfl⟩ := List.mem_map.1 hj
      exact (hhu.kid hkid).parent?
    · obtain ⟨u, hu, rfl⟩ := (hh.reaches_iff hf).1 hp
      obtain ⟨v, hv, he⟩ := (hh.reaches_iff hf).1 hq
      exact Tree.nodup_ids_iff.1 hn p q u v hu hv he.symm

end Store

end ContractTree
