import ContractTree.Proofs.Tree
import ContractTree.Store.Basic
import Mathlib.Data.List.Count

/-!
The order of a walk, said on trees. A walk calls its visitor again and again (`Visit`), and a call may put trees in
front of the statement it is at, put a tree in the place of the node, and append trees to the module (`Deed`).
`Toured` says that visits follow some trees in pre-order, where a node that was replaced is left for what replaced
it. The body of the module is a queue, whose end grows with what the visits append (`Queued`).

Every visit is of a node of the trees, of a replacement or of what was appended (`Queued.count_le`), and of the
nodes of the trees only those are left out that are below a replaced node (`Queued.mem_or_below`). A replacement is
visited next (`Queued.follows`), and what was appended is visited when all that was in front of it has been
(`Queued.exists_appended`).
-/

namespace ContractTree

/-- A call of a visitor: the node, and the store before and after. -/
structure Visit where
  node : NodeId
  before : Store
  after : Store
  deriving DecidableEq

/-- What a visit does to the tree of the module. -/
structure Deed where
  /-- The trees put in front of the statement that the visited node is in. -/
  inserted : List Tree := []
  /-- What is put in the place of the visited node. -/
  replacement : Option Tree := none
  /-- The trees put at the end of the module. -/
  appended : List Tree := []

namespace Deed

def filling (d : Deed) : List NodeId := d.replacement.toList.flatMap Tree.ids

/-- The identities of all that was put into the tree. -/
def ids (d : Deed) : List NodeId := d.inserted.flatMap Tree.ids ++ d.filling ++ d.appended.flatMap Tree.ids

theorem filling_subset_ids (d : Deed) : d.filling ⊆ d.ids := fun i hi => by simp [ids, hi]

theorem appended_subset_ids (d : Deed) : d.appended.flatMap Tree.ids ⊆ d.ids := fun i hi => by simp [ids, hi]

end Deed

variable {deed : Visit → Deed}

/-- The nodes that were visited. -/
def visited (L : List Visit) : List NodeId := L.map Visit.node

/-- The trees that the visits appended. -/
def appendedAll (deed : Visit → Deed) (L : List Visit) : List Tree := L.flatMap fun v => (deed v).appended

@[simp] theorem visited_cons {v : Visit} {L : List Visit} : visited (v :: L) = v.node :: visited L := rfl
@[simp] theorem visited_append {L L' : List Visit} : visited (L ++ L') = visited L ++ visited L' := List.map_append
@[simp] theorem visited_nil : visited [] = [] := rfl

@[simp] theorem appendedAll_nil : appendedAll deed [] = [] := rfl
@[simp] theorem appendedAll_cons {v : Visit} {L : List Visit} :
    appendedAll deed (v :: L) = (deed v).appended ++ appendedAll deed L := List.flatMap_cons
@[simp] theorem appendedAll_append {L L' : List Visit} :
    appendedAll deed (L ++ L') = appendedAll deed L ++ appendedAll deed L' := List.flatMap_append

theorem mem_ids_appendedAll {L : List Visit} {i : NodeId} (h : i ∈ (appendedAll deed L).flatMap Tree.ids) :
    ∃ v ∈ L, i ∈ (deed v).ids := by
  obtain ⟨u, hu, hi⟩ := List.mem_flatMap.1 h
  obtain ⟨v, hv, hu⟩ := List.mem_flatMap.1 hu
  exact ⟨v, hv, (deed v).appended_subset_ids (List.mem_flatMap.2 ⟨u, hu, hi⟩)⟩

/-- The visits follow the trees in pre-order. -/
inductive Toured (deed : Visit → Deed) : List Tree → List Visit → Prop where
  | nil : Toured deed [] []
  | stay {t : Tree} {ts : List Tree} {v : Visit} {L L' : List Visit} (hv : v.node = t.id)
      (hr : (deed v).replacement = none) (hk : Toured deed t.kids L) (hts : Toured deed ts L') :
      Toured deed (t :: ts) (v :: (L ++ L'))
  | moved {t N : Tree} {ts : List Tree} {v : Visit} {L L' : List Visit} (hv : v.node = t.id)
      (hr : (deed v).replacement = some N) (hN : Toured deed [N] L) (hts : Toured deed ts L') :
      Toured deed (t :: ts) (v :: (L ++ L'))

/-- The visits follow a queue of trees, at whose end all trees are put that they append. The first visit to a tree
of the queue finds it as `found` says, in front of the rest of the queue. -/
inductive Queued (deed : Visit → Deed) (found : Tree → List Tree → Visit → Prop) :
    List Tree → List Visit → Prop where
  | nil : Queued deed found [] []
  | cons {d : Tree} {ds : List Tree} {L L' : List Visit} (hd : Toured deed [d] L)
      (hx : ∀ x ∈ L.head?, found d ds x) (hds : Queued deed found (ds ++ appendedAll deed L) L') :
      Queued deed found (d :: ds) (L ++ L')

/-- The tree has this part, which is `t` with what is below it. -/
def Tree.Has (u t : Tree) : Prop := ∃ C : Ctx, C.plug t = u

theorem Tree.Has.kid {u k t : Tree} (hk : k ∈ u.kids) (h : k.Has t) : u.Has t := by
  obtain ⟨C, rfl⟩ := h
  obtain ⟨f, rfl⟩ := Tree.exists_frame hk
  exact ⟨C ++ [f], Ctx.plug_append ..⟩

/-- The node is below one of the trees' parts that were replaced. -/
def BelowReplaced (deed : Visit → Deed) (ts : List Tree) (L : List Visit) (a : NodeId) : Prop :=
  ∃ v ∈ L, (deed v).replacement ≠ none ∧ ∃ u ∈ ts, ∃ t : Tree, u.Has t ∧ t.id = v.node ∧
    a ∈ t.kids.flatMap Tree.ids

theorem BelowReplaced.mono {ts us : List Tree} {L L' : List Visit} {a : NodeId} (h : BelowReplaced deed ts L a)
    (hL : L ⊆ L') (hts : ∀ t ∈ ts, ∃ u ∈ us, u.Has t ) : BelowReplaced deed us L' a := by
  obtain ⟨v, hv, hr, u, hu, t, ⟨C, rfl⟩, ht, ha⟩ := h
  obtain ⟨u', hu', D, rfl⟩ := hts _ hu
  exact ⟨v, hL hv, hr, _, hu', t, ⟨C ++ D, Ctx.plug_append ..⟩, ht, ha⟩

/-- A visit that replaces its node is followed by the visit to the replacement. -/
def Follows (deed : Visit → Deed) (L : List Visit) : Prop :=
  ∀ A e B, L = A ++ e :: B → ∀ N, (deed e).replacement = some N → ∃ x B', B = x :: B' ∧ x.node = N.id

theorem Follows.append {L L' : List Visit} (h : Follows deed L) (h' : Follows deed L') :
    Follows deed (L ++ L') := by
  intro A e B hL N hN
  rcases List.append_eq_append_iff.1 hL with ⟨C, rfl, hC⟩ | ⟨C, rfl, hC⟩
  · exact h' C e B hC N hN
  · cases C with
    | nil => exact h' [] e B hC.symm N hN
    | cons c C =>
      obtain ⟨rfl, rfl⟩ := List.cons.inj hC
      obtain ⟨x, B', rfl, hx⟩ := h A e C rfl N hN
      exact ⟨x, B' ++ L', rfl, hx⟩

theorem Follows.cons {v : Visit} {L : List Visit} (h : Follows deed L)
    (hv : ∀ N, (deed v).replacement = some N → ∃ x L', L = x :: L' ∧ x.node = N.id) : Follows deed (v :: L) := by
  intro A e B hL N hN
  cases A with
  | nil =>
    obtain ⟨rfl, rfl⟩ := List.cons.inj hL
    exact hv N hN
  | cons a A => exact h A e B (List.cons.inj hL).2 N hN

namespace Toured

variable {t : Tree} {ts : List Tree} {L : List Visit} {a : NodeId}

/-- The first tree is visited first. -/
theorem exists_head (h : Toured deed (t :: ts) L) : ∃ v L', L = v :: L' ∧ v.node = t.id := by
  cases h with
  | stay hv => exact ⟨_, _, rfl, hv⟩
  | moved hv => exact ⟨_, _, rfl, hv⟩

theorem append {us : List Tree} {L' : List Visit} (h : Toured deed ts L) (h' : Toured deed us L') :
    Toured deed (ts ++ us) (L ++ L') := by
  induction h with
  | nil => exact h'
  | stay hv hr hk _ _ ih =>
    rw [List.cons_append, List.cons_append, List.append_assoc]
    exact .stay hv hr hk ih
  | moved hv hr hN _ _ ih =>
    rw [List.cons_append, List.cons_append, List.append_assoc]
    exact .moved hv hr hN ih

/-- Nothing is visited more often than it is in the trees and in replacements. -/
theorem count_le (h : Toured deed ts L) :
    (visited L).count a ≤ (ts.flatMap Tree.ids).count a + (L.flatMap fun v => (deed v).filling).count a := by
  induction h with
  | nil => simp
  | @stay t ts v L L' hv hr hk hts ihk ihts =>
    simp only [visited_cons, visited_append, List.flatMap_cons, List.flatMap_append, List.count_cons,
      List.count_append, Tree.ids_eq t, hv]
    omega
  | @moved t N ts v L L' hv hr hN hts ihN ihts =>
    have hfill : (deed v).filling = N.ids := by simp [Deed.filling, hr]
    simp only [List.flatMap_cons, List.flatMap_nil, List.append_nil] at ihN
    simp only [visited_cons, visited_append, List.flatMap_cons, List.flatMap_append, List.count_cons,
      List.count_append, Tree.ids_eq t, hv, hfill]
    omega

/-- What is visited is in the trees or in a replacement. -/
theorem mem_ids_or (h : Toured deed ts L) (ha : a ∈ visited L) :
    a ∈ ts.flatMap Tree.ids ∨ ∃ v ∈ L, a ∈ (deed v).ids := by
  have hpos := List.count_pos_iff.2 ha
  have hle := h.count_le (a := a)
  by_cases hts : a ∈ ts.flatMap Tree.ids
  · exact .inl hts
  · rw [List.count_eq_zero.2 hts, Nat.zero_add] at hle
    obtain ⟨v, hv, hfill⟩ := List.mem_flatMap.1 (List.count_pos_iff.1 (Nat.lt_of_lt_of_le hpos hle))
    exact .inr ⟨v, hv, (deed v).filling_subset_ids hfill⟩

/-- What is not visited is below a part that was replaced. -/
theorem mem_or_below (h : Toured deed ts L) (ha : a ∈ ts.flatMap Tree.ids) :
    a ∈ visited L ∨ BelowReplaced deed ts L a := by
  induction h with
  | nil => simp at ha
  | @stay t ts v L L' hv hr hk hts ihk ihts =>
    simp only [List.flatMap_cons, List.mem_append, Tree.ids_eq t, List.mem_cons] at ha
    rcases ha with (rfl | ha) | ha
    · simp [hv]
    · refine (ihk ha).imp (fun h => by simp [h]) fun h => h.mono (fun x hx => by simp [hx]) fun k hk => ?_
      exact ⟨t, List.mem_cons_self, .kid hk ⟨[], rfl⟩⟩
    · refine (ihts ha).imp (fun h => by simp [h]) fun h => h.mono (fun x hx => by simp [hx]) fun u hu => ?_
      exact ⟨u, List.mem_cons_of_mem _ hu, [], rfl⟩
  | @moved t N ts v L L' hv hr hN hts ihN ihts =>
    simp only [List.flatMap_cons, List.mem_append, Tree.ids_eq t, List.mem_cons] at ha
    rcases ha with (rfl | ha) | ha
    · simp [hv]
    · exact .inr ⟨v, List.mem_cons_self, by simp [hr], t, List.mem_cons_self, t, ⟨[], rfl⟩, hv.symm, ha⟩
    · refine (ihts ha).imp (fun h => by simp [h]) fun h => h.mono (fun x hx => by simp [hx]) fun u hu => ?_
      exact ⟨u, List.mem_cons_of_mem _ hu, [], rfl⟩

theorem follows (h : Toured deed ts L) : Follows deed L := by
  induction h with
  | nil => exact fun A e B hL => by simp at hL
  | stay hv hr hk hts ihk ihts => exact (ihk.append ihts).cons fun N hN => by simp [hr] at hN
  | @moved t N ts v L L' hv hr hN hts ihN ihts =>
    refine (ihN.append ihts).cons fun N' hN' => ?_
    obtain rfl : N = N' := Option.some.inj (hr.symm.trans hN')
    obtain ⟨x, L'', rfl, hx⟩ := hN.exists_head
    exact ⟨x, L'' ++ L', rfl, hx⟩

/-- Visits that do nothing are those to all nodes. -/
theorem visited_eq (h : Toured deed ts L) (hquiet : ∀ v ∈ L, (deed v).replacement = none) :
    visited L = ts.flatMap Tree.ids := by
  induction h with
  | nil => rfl
  | @stay t ts v L L' hv hr hk hts ihk ihts =>
    rw [visited_cons, visited_append, ihk fun u hu => hquiet u (by simp [hu]),
      ihts fun u hu => hquiet u (by simp [hu]), hv, List.flatMap_cons, Tree.ids_eq t]
    rfl
  | @moved t N ts v L L' hv hr => simp [hquiet v List.mem_cons_self] at hr

end Toured

namespace Queued

variable {found : Tree → List Tree → Visit → Prop} {ds : List Tree} {L : List Visit} {a : NodeId}

theorem count_le (h : Queued deed found ds L) : (visited L).count a ≤ (ds.flatMap Tree.ids).count a +
    (L.flatMap fun v => (deed v).filling).count a + ((appendedAll deed L).flatMap Tree.ids).count a := by
  induction h with
  | nil => simp
  | @cons d ds L L' hd hx hds ih =>
    have hd := hd.count_le (a := a)
    simp only [List.flatMap_cons, List.flatMap_nil, List.append_nil] at hd
    simp only [visited_append, appendedAll_append, List.flatMap_cons, List.flatMap_append,
      List.count_append] at ih ⊢
    omega

theorem mem_or_below (h : Queued deed found ds L) (ha : a ∈ ds.flatMap Tree.ids) :
    a ∈ visited L ∨ ∃ us, BelowReplaced deed (ds ++ us) L a ∧ us ⊆ appendedAll deed L := by
  induction h with
  | nil => simp at ha
  | @cons d ds L L' hd hx hds ih =>
    rw [List.flatMap_cons, List.mem_append] at ha
    rcases ha with ha | ha
    · rcases hd.mem_or_below (by simpa using ha) with h | h
      · exact .inl (by simp [h])
      · exact .inr ⟨[], h.mono (List.subset_append_left _ _) fun t ht => ⟨t, by simp_all, [], rfl⟩, by simp⟩
    · rcases ih (by simp [List.flatMap_append, ha]) with h | ⟨us, h, hus⟩
      · exact .inl (by simp [h])
      · refine .inr ⟨appendedAll deed L ++ us, h.mono (List.subset_append_right _ _)
          fun t ht => ⟨t, ?_, [], rfl⟩, ?_⟩
        · simp only [List.mem_append, List.cons_append, List.mem_cons] at ht ⊢
          tauto
        · rw [appendedAll_append]
          exact List.append_subset.2 ⟨List.subset_append_left _ _,
            List.Subset.trans hus (List.subset_append_right _ _)⟩

theorem follows (h : Queued deed found ds L) : Follows deed L := by
  induction h with
  | nil => exact fun A e B hL => by simp at hL
  | cons hd hx hds ih => exact hd.follows.append ih

theorem visited_eq (h : Queued deed found ds L) (hquiet : ∀ v ∈ L, deed v = {}) :
    visited L = ds.flatMap Tree.ids := by
  induction h with
  | nil => rfl
  | @cons d ds L L' hd hx hds ih =>
    have hL : ∀ v ∈ L, deed v = {} := fun v hv => hquiet v (List.mem_append_left _ hv)
    have hnone : appendedAll deed L = [] := List.flatMap_eq_nil_iff.2 fun v hv => by rw [hL v hv]
    rw [visited_append, hd.visited_eq fun v hv => by rw [hL v hv],
      ih fun v hv => hquiet v (List.mem_append_right _ hv), hnone]
    simp

/-- What is visited is in the queue, or a visit put it into the tree. -/
theorem mem_ids_or (h : Queued deed found ds L) (ha : a ∈ visited L) :
    a ∈ ds.flatMap Tree.ids ∨ ∃ v ∈ L, a ∈ (deed v).ids := by
  induction h with
  | nil => simp at ha
  | @cons d ds L L' hd hx hds ih =>
    have here : (∃ v ∈ L, a ∈ (deed v).ids) → ∃ v ∈ L ++ L', a ∈ (deed v).ids :=
      fun ⟨v, hv, h⟩ => ⟨v, List.mem_append_left _ hv, h⟩
    rw [visited_append, List.mem_append] at ha
    rw [List.flatMap_cons, List.mem_append]
    rcases ha with ha | ha
    · rcases hd.mem_ids_or ha with h | h
      · exact .inl (.inl (by simpa using h))
      · exact .inr (here h)
    · rcases ih ha with h | ⟨v, hv, h⟩
      · rw [List.flatMap_append, List.mem_append] at h
        exact h.imp .inr fun h => here (mem_ids_appendedAll h)
      · exact .inr ⟨v, List.mem_append_right _ hv, h⟩

/-- A tree of the queue is visited, and after it only what is in it, what is then behind it and what visits from
then on put into the tree. -/
theorem exists_visit {xs ys : List Tree} {G : Tree} (h : Queued deed found (xs ++ G :: ys) L) :
    ∃ L₁ x L₂, L = L₁ ++ x :: L₂ ∧ x.node = G.id ∧ found G (ys ++ appendedAll deed L₁) x ∧ ∀ i ∈ visited L₂,
      i ∈ (G :: (ys ++ appendedAll deed L₁)).flatMap Tree.ids ∨ ∃ v ∈ x :: L₂, i ∈ (deed v).ids := by
  induction xs generalizing ys L with
  | nil =>
    cases h with
    | @cons _ _ L L' hd hx hds =>
      obtain ⟨x, L₂, rfl, hnode⟩ := hd.exists_head
      refine ⟨[], x, L₂ ++ L', rfl, hnode, by simpa using hx x rfl, fun i hi => ?_⟩
      rw [appendedAll_nil, List.append_nil]
      exact (Queued.cons hd hx hds).mem_ids_or (by simpa using .inr (by simpa using hi))
  | cons d xs ih =>
    cases h with
    | @cons _ _ L L' hd hx hds =>
      have hds : Queued deed found (xs ++ G :: (ys ++ appendedAll deed L)) L' := by simpa using hds
      obtain ⟨L₁, x, L₂, rfl, hnode, hfound, hafter⟩ := ih hds
      rw [List.append_assoc, ← appendedAll_append] at hfound hafter
      exact ⟨L ++ L₁, x, L₂, by simp, hnode, hfound, hafter⟩

/-- A tree that a visit appends is visited later, and after it only what is in it, what is then behind it and what
visits from then on put into the tree. -/
theorem exists_appended (h : Queued deed found ds L) {A B : List Visit} {e : Visit} {as bs : List Tree} {G : Tree}
    (hL : L = A ++ e :: B) (he : (deed e).appended = as ++ G :: bs) :
    ∃ B₁ x B₂, B = B₁ ++ x :: B₂ ∧ x.node = G.id ∧ found G (bs ++ appendedAll deed B₁) x ∧ ∀ i ∈ visited B₂,
      i ∈ (G :: (bs ++ appendedAll deed B₁)).flatMap Tree.ids ∨ ∃ v ∈ x :: B₂, i ∈ (deed v).ids := by
  induction h generalizing A with
  | nil => simp at hL
  | @cons d ds L L' hd hx hds ih =>
    -- the visit is to the first tree of the queue, or to what comes behind it
    rcases List.append_eq_append_iff.1 hL with ⟨C, rfl, hC⟩ | ⟨C, rfl, hC⟩
    · exact ih hC
    cases C with
    | nil => exact ih (A := []) hC.symm
    | cons c C =>
      obtain ⟨rfl, rfl⟩ := List.cons.inj hC
      have hqueue :
          Queued deed found ((ds ++ appendedAll deed A ++ as) ++ G :: (bs ++ appendedAll deed C)) L' := by
        simpa [he] using hds
      obtain ⟨L₁, x, L₂, rfl, hnode, hfound, hafter⟩ := hqueue.exists_visit
      rw [List.append_assoc, ← appendedAll_append] at hfound hafter
      exact ⟨C ++ L₁, x, L₂, by simp, hnode, hfound, hafter⟩

end Queued

/-! ## The walk over a module -/

/-- The visits follow the tree of a module: its top, and its body as a queue. -/
inductive Surveyed (deed : Visit → Deed) (found : Tree → List Tree → Visit → Prop) (T : Tree) :
    List Visit → Prop where
  | mk {v : Visit} {L : List Visit} (hv : v.node = T.id) (hr : (deed v).replacement = none)
      (hq : Queued deed found (T.kids ++ (deed v).appended) L) : Surveyed deed found T (v :: L)

/-- The identities of all that the visits put into the tree. -/
def planted (deed : Visit → Deed) (L : List Visit) : List NodeId := L.flatMap fun v => (deed v).ids

theorem count_planted (L : List Visit) (a : NodeId) : (planted deed L).count a =
    (L.flatMap fun v => (deed v).inserted.flatMap Tree.ids).count a +
    (L.flatMap fun v => (deed v).filling).count a +
      ((appendedAll deed L).flatMap Tree.ids).count a := by
  induction L with
  | nil => rfl
  | cons v L ih =>
    simp only [planted, Deed.ids, appendedAll_cons, List.flatMap_cons, List.flatMap_append,
      List.count_append] at ih ⊢
    omega

namespace Surveyed

variable {found : Tree → List Tree → Visit → Prop} {T : Tree} {L : List Visit} {a : NodeId}

/-- What is visited is in the tree, in a replacement or in what was appended, and not in what was inserted. -/
theorem count_add_le (h : Surveyed deed found T L) :
    (visited L).count a + (L.flatMap fun v => (deed v).inserted.flatMap Tree.ids).count a ≤
      (T.ids ++ planted deed L).count a := by
  rw [List.count_append, count_planted]
  cases h with
  | @mk v L hv hr hq =>
    have hle := hq.count_le (a := a)
    simp only [visited_cons, appendedAll_cons, List.flatMap_cons, List.flatMap_append, List.count_append,
      List.count_cons, Tree.ids_eq T, hv] at hle ⊢
    omega

theorem follows (h : Surveyed deed found T L) : Follows deed L := by
  cases h with
  | mk hv hr hq => exact hq.follows.cons fun N hN => by simp [hr] at hN

theorem mem_or_below (h : Surveyed deed found T L) (ha : a ∈ T.ids) :
    a ∈ visited L ∨ ∃ us, BelowReplaced deed (T :: us) L a ∧ us ⊆ appendedAll deed L := by
  cases h with
  | @mk v L hv hr hq =>
    rw [Tree.ids_eq, List.mem_cons] at ha
    rcases ha with rfl | ha
    · exact .inl (by simp [hv])
    · have ha : a ∈ (T.kids ++ (deed v).appended).flatMap Tree.ids := by
        rw [List.flatMap_append]
        exact List.mem_append_left _ ha
      rcases hq.mem_or_below ha with h | ⟨us, h, hus⟩
      · exact .inl (List.mem_cons_of_mem _ h)
      · refine .inr ⟨(deed v).appended ++ us, h.mono (List.subset_cons_self _ _) fun t ht => ?_, ?_⟩
        · simp only [List.mem_append] at ht
          rcases ht with (ht | ht) | ht
          · exact ⟨T, List.mem_cons_self, .kid ht ⟨[], rfl⟩⟩
          · exact ⟨t, by simp [ht], [], rfl⟩
          · exact ⟨t, by simp [ht], [], rfl⟩
        · rw [appendedAll_cons]
          exact List.append_subset.2 ⟨List.subset_append_left _ _,
            List.Subset.trans hus (List.subset_append_right _ _)⟩

theorem visited_eq (h : Surveyed deed found T L) (hquiet : ∀ v ∈ L, deed v = {}) : visited L = T.ids := by
  cases h with
  | @mk v L hv hr hq =>
    rw [visited_cons, hq.visited_eq fun u hu => hquiet u (List.mem_cons_of_mem _ hu),
      hquiet v List.mem_cons_self, hv, Tree.ids_eq, List.append_nil]

theorem exists_appended (h : Surveyed deed found T L) {A B : List Visit} {e : Visit} {as bs : List Tree} {G : Tree}
    (hL : L = A ++ e :: B) (he : (deed e).appended = as ++ G :: bs) :
    ∃ B₁ x B₂, B = B₁ ++ x :: B₂ ∧ x.node = G.id ∧ found G (bs ++ appendedAll deed B₁) x ∧ ∀ i ∈ visited B₂,
      i ∈ (G :: (bs ++ appendedAll deed B₁)).flatMap Tree.ids ∨ ∃ v ∈ x :: B₂, i ∈ (deed v).ids := by
  cases h with
  | @mk v L hv hr hq =>
    cases A with
    | nil =>
      obtain ⟨rfl, rfl⟩ := List.cons.inj hL
      rw [he, ← List.append_assoc] at hq
      exact hq.exists_visit
    | cons c A => exact hq.exists_appended (List.cons.inj hL).2 he

variable (h : Surveyed deed found T L) (hn : (T.ids ++ planted deed L).Nodup)

include h hn

theorem count_le_one : (visited L).count a ≤ 1 := by
  have h1 := h.count_add_le (a := a)
  have h2 := List.nodup_iff_count_le_one.1 hn a
  omega

/-- What was inserted is not visited. -/
theorem notMem_of_inserted {e : Visit} (he : e ∈ L) (ha : a ∈ (deed e).inserted.flatMap Tree.ids) :
    a ∉ visited L := by
  intro hvisited
  have h1 := List.count_pos_iff.2 hvisited
  have h2 : 0 < (L.flatMap fun v => (deed v).inserted.flatMap Tree.ids).count a :=
    List.count_pos_iff.2 (List.mem_flatMap.2 ⟨e, he, ha⟩)
  have h3 := h.count_add_le (a := a)
  have h4 := List.nodup_iff_count_le_one.1 hn a
  omega

/-- What was in the tree is visited once, if it is not below a part that was replaced. -/
theorem count_original (ha : a ∈ T.ids) (hbelow : ¬ BelowReplaced deed [T] L a) : (visited L).count a = 1 := by
  refine Nat.le_antisymm (h.count_le_one hn) (List.count_pos_iff.2 ?_)
  refine (h.mem_or_below ha).resolve_right ?_
  rintro ⟨us, ⟨v, hv, hr, u, hu, t, ⟨C, rfl⟩, ht, hat⟩, hus⟩
  rcases List.mem_cons.1 hu with rfl | hu
  · exact hbelow ⟨v, hv, hr, _, List.mem_cons_self, t, ⟨C, rfl⟩, ht, hat⟩
  · -- no node of the tree is in what was appended
    have hau : a ∈ (C.plug t).ids := (Ctx.mem_ids_plug C t a).2
      (.inr (by rw [Tree.ids_eq]; exact List.mem_cons_of_mem _ hat))
    obtain ⟨e, he, hae⟩ := mem_ids_appendedAll (List.mem_flatMap.2 ⟨_, hus hu, hau⟩)
    exact (List.nodup_append'.1 hn).2.2 ha (List.mem_flatMap.2 ⟨e, he, hae⟩)

end Surveyed

/-! ## Visits one after the other -/

/-- Each visit finds the store that the one in front of it left. -/
def Chained : Store → List Visit → Store → Prop
  | s, [], s' => s' = s
  | s, e :: L, s' => e.before = s ∧ Chained e.after L s'

/-- What the visit puts into the tree was made by it. -/
structure Deed.NewIn (d : Deed) (e : Visit) : Prop where
  grown : e.before.nextId ≤ e.after.nextId
  nodup : d.ids.Nodup
  new : ∀ i ∈ d.ids, e.before.nextId ≤ i ∧ i < e.after.nextId

namespace Chained

variable {s s' s'' : Store} {L L' : List Visit}

theorem append : Chained s (L ++ L') s'' ↔ ∃ s', Chained s L s' ∧ Chained s' L' s'' := by
  induction L generalizing s with
  | nil => simp [Chained]
  | cons e L ih => simp [Chained, ih, and_assoc]

/-- The identities of what the visits put into the tree are distinct, and the counter was at most at them at first
and is beyond them at last. -/
theorem nodup_planted (h : Chained s L s') (hnew : ∀ e ∈ L, (deed e).NewIn e) :
    s.nextId ≤ s'.nextId ∧ (planted deed L).Nodup ∧ ∀ i ∈ planted deed L, s.nextId ≤ i ∧ i < s'.nextId := by
  induction L generalizing s with
  | nil =>
    obtain rfl : s' = s := h
    exact ⟨Nat.le_refl _, by simp [planted], by simp [planted]⟩
  | cons e L ih =>
    obtain ⟨rfl, h⟩ := h
    obtain ⟨hle, hnd, hrange⟩ := ih h fun v hv => hnew v (List.mem_cons_of_mem _ hv)
    obtain ⟨hle', hnd', hrange'⟩ := hnew e List.mem_cons_self
    refine ⟨Nat.le_trans hle' hle, List.nodup_append'.2 ⟨hnd', hnd, fun i hi hi' => ?_⟩, fun i hi => ?_⟩
    · exact Nat.not_lt_of_le (hrange i hi').1 (hrange' i hi).2
    · rcases List.mem_append.1 hi with hi | hi
      · exact ⟨(hrange' i hi).1, Nat.lt_of_lt_of_le (hrange' i hi).2 hle⟩
      · exact ⟨Nat.le_trans hle' (hrange i hi).1, (hrange i hi).2⟩

end Chained

end ContractTree
