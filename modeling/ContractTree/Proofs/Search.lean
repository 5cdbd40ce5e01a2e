import ContractTree.Proofs.Ancestry
import ContractTree.Proofs.Persistence
import ContractTree.Proofs.Site

/-!
Searches downwards and upwards agree. One goes down over lists of children and the other up along the links to
parents. In a tree that passes the check, a node is below another one exactly if that one is above it
(`Store.below_iff_above`); the search downwards finds what is below in the order in which a document lists it, and
the search upwards finds the nearest match (`Store.searches_agree`).
-/

namespace ContractTree

open Relation (TransGen ReflTransGen)

/-- What is in a place keeps its order in the whole tree. -/
theorem Ctx.ids_sublist_plug (C : Ctx) (t : Tree) : t.ids.Sublist (C.plug t).ids := by
  induction C generalizing t with
  | nil => exact List.Sublist.refl _
  | cons f C ih =>
    refine List.Sublist.trans ?_ (ih (f.plug [t]))
    rw [Tree.ids_eq (f.plug [t]), Frame.kids_plug]
    simp only [List.flatMap_append, List.flatMap_cons, List.flatMap_nil, List.append_nil, List.append_assoc]
    exact ((List.sublist_append_left _ _).trans (List.sublist_append_right _ _)).cons _

theorem Ctx.map_id_subset (C : Ctx) : C.map Frame.id ⊆ C.ids := by
  induction C with
  | nil => simp
  | cons f C ih =>
    intro i hi
    rcases List.mem_cons.1 hi with rfl | hi
    · exact List.mem_cons_self
    · exact List.mem_cons_of_mem _ (List.mem_append_right _ (ih hi))

/-- The nodes above a place that `t` is in, innermost first. -/
def Ctx.above : Ctx → Tree → List Node
  | [], _ => []
  | f :: C, t => { id := f.id, parent := Ctx.parent C, ty := f.ty, kind := f.kind [t.id] } :: above C (f.plug [t])

theorem Ctx.map_id_above (C : Ctx) (t : Tree) : (C.above t).map Node.id = C.map Frame.id := by
  induction C generalizing t with
  | nil => rfl
  | cons f C ih => simp [above, ih]

namespace Store

/-- The node `n` is strictly below `a`: links to children lead from `a` to it. -/
def Below (s : Store) (a n : NodeId) : Prop := ∃ path, path ≠ [] ∧ s.Reaches a path n

variable {s : Store} {a n r : NodeId} {t u : Tree} {C : Ctx} {p : Option NodeId}

theorem Holds.below_iff (h : s.Holds p t) (hf : t.Fits) : s.Below t.id n ↔ n ∈ t.kids.flatMap Tree.ids := by
  rw [List.mem_flatMap]
  constructor
  · rintro ⟨_ | ⟨k, path⟩, hne, hr⟩
    · exact absurd rfl hne
    · obtain ⟨v, hv, rfl⟩ := (h.reaches_iff hf).1 hr
      obtain ⟨kid, hkid, hv⟩ := Option.bind_eq_some_iff.1 hv
      exact ⟨kid, List.mem_of_getElem? hkid, Tree.mem_ids_of_at? hv⟩
  · rintro ⟨kid, hkid, hn⟩
    obtain ⟨path, v, hv, rfl⟩ := Tree.exists_at?_of_mem hn
    obtain ⟨k, hk⟩ := List.mem_iff_getElem?.1 hkid
    exact ⟨k :: path, by simp, (h.reaches_iff hf).2 ⟨v, by rw [Tree.at?_cons, hk]; exact hv, rfl⟩⟩

/-! ## Upwards -/

/-- What is above a place are the nodes of its frames. -/
theorem above_iff (h : s.Holds none (C.plug t)) : TransGen s.Up t.id a ↔ a ∈ C.map Frame.id := by
  induction C generalizing t with
  | nil =>
    rw [Ctx.plug_nil] at h
    refine iff_of_false (fun hup => ?_) (by simp)
    obtain ⟨b, hb, -⟩ := TransGen.head'_iff.1 hup
    simp [Up, h.parent?] at hb
  | cons f C ih =>
    have hparent : s.parent? t.id = some f.id := (Holds.inside h).parent?
    have hrest := ih h
    rw [Frame.id_plug] at hrest
    rw [TransGen.head'_iff, List.map_cons, List.mem_cons, ← hrest]
    constructor
    · rintro ⟨b, hb, hba⟩
      obtain rfl := Option.some.inj (hparent.symm.trans hb)
      exact Relation.reflTransGen_iff_eq_or_transGen.1 hba
    · intro ha
      exact ⟨f.id, hparent, Relation.reflTransGen_iff_eq_or_transGen.2 ha⟩

theorem upFrom_plug {fuel : Nat} (h : s.Holds none (C.plug t)) (hfuel : C.length ≤ fuel) :
    s.upFrom fuel C.parent = C.above t := by
  induction C generalizing t fuel with
  | nil => cases fuel <;> rfl
  | cons f C ih =>
    obtain ⟨fuel, rfl⟩ : ∃ k, fuel = k + 1 := ⟨fuel - 1, by simp at hfuel; omega⟩
    rw [Ctx.parent_cons, upFrom, find?_frame h, Ctx.above]
    simp only
    rw [ih h (Nat.le_of_succ_le_succ hfuel)]

theorem ancestors_plug (h : s.Holds none (C.plug t)) (hn : (C.plug t).ids.Nodup) :
    s.ancestors t.id = C.above t := by
  rw [ancestors, (Holds.inside h).parent?, upFrom_plug h (Nat.le_of_lt (length_ctx_le h hn))]

theorem find?_of_mem_above {m : Node} (h : s.Holds none (C.plug t)) (hm : m ∈ C.above t) :
    s.find? m.id = some m := by
  induction C generalizing t with
  | nil => simp [Ctx.above] at hm
  | cons f C ih =>
    rcases List.mem_cons.1 hm with rfl | hm
    · exact find?_frame h
    · exact ih h hm

/-- Of the nodes above a place, the later ones are above the earlier ones. -/
theorem pairwise_above (h : s.Holds none (C.plug t)) :
    (C.above t).Pairwise fun m m' => TransGen s.Up m.id m'.id := by
  induction C generalizing t with
  | nil => exact List.Pairwise.nil
  | cons f C ih =>
    refine List.pairwise_cons.2 ⟨fun m hm => ?_, ih h⟩
    have hmem : m.id ∈ C.map Frame.id := Ctx.map_id_above C _ ▸ List.mem_map_of_mem hm
    simpa using (above_iff (t := f.plug [t]) h).2 hmem

/-- **Below is above, seen from the other end.** -/
theorem below_iff_above (h : s.Holds none t) (hf : t.Fits) (ha : a ∈ t.ids) (hn : n ∈ t.ids) :
    s.Below a n ↔ TransGen s.Up n a := by
  constructor
  · intro hbelow
    obtain ⟨E, v, rfl, rfl⟩ := Tree.exists_place ha
    obtain ⟨k, hk, hi⟩ := List.mem_flatMap.1 (((Holds.inside h).below_iff (Ctx.fits_of_plug hf)).1 hbelow)
    obtain ⟨f, rfl⟩ := Tree.exists_frame hk
    obtain ⟨D, u, rfl, rfl⟩ := Tree.exists_place hi
    have hplace : Ctx.plug (D ++ f :: E) u = E.plug (f.plug [D.plug u]) := by rw [Ctx.plug_append, Ctx.plug_cons]
    exact (above_iff (hplace ▸ h)).2 (by simp)
  · intro hup
    obtain ⟨C, u, rfl, rfl⟩ := Tree.exists_place hn
    obtain ⟨f, hfC, rfl⟩ := List.mem_map.1 ((above_iff h).1 hup)
    obtain ⟨D, E, rfl⟩ := List.append_of_mem hfC
    rw [Ctx.plug_append, Ctx.plug_cons] at h hf
    have hbelow := (Holds.inside h).below_iff (n := u.id) (Ctx.fits_of_plug hf)
    rw [Frame.id_plug] at hbelow
    refine hbelow.2 (List.mem_flatMap.2 ⟨Ctx.plug D u, by simp, ?_⟩)
    exact (Ctx.mem_ids_plug D u _).2 (.inr u.id_mem_ids)

/-- No node of a tree is above itself. -/
theorem not_above_self (h : s.Holds none t) (hf : t.Fits) (hnd : t.ids.Nodup) (hn : n ∈ t.ids) :
    ¬ TransGen s.Up n n := by
  rw [← below_iff_above h hf hn hn]
  obtain ⟨C, u, rfl, rfl⟩ := Tree.exists_place hn
  rw [(Holds.inside h).below_iff (Ctx.fits_of_plug hf)]
  exact (List.nodup_cons.1 (Tree.ids_eq u ▸ ((Ctx.nodup_plug C u).1 hnd).2.1)).1

/-- Whether a node is one that is looked for. -/
def Matches (s : Store) (tag : Tag) (test : Node → Bool) (i : NodeId) : Prop :=
  ∃ m, s.find? i = some m ∧ m.tag = tag ∧ test m = true

variable {tag : Tag} {test : Node → Bool}

theorem matches_iff {m : Node} (hm : s.find? n = some m) : s.Matches tag test n ↔ m.tag = tag ∧ test m = true := by
  simp [Matches, hm]

/-- What the search upwards gives is above the node, matches, and has every other match above it. -/
theorem ancestor?_plug (h : s.Holds none (C.plug t)) (hn : (C.plug t).ids.Nodup)
    (ha : s.ancestor? t.id tag test = some a) : (TransGen s.Up t.id a ∧ s.Matches tag test a) ∧
      ∀ b, TransGen s.Up t.id b → s.Matches tag test b → b = a ∨ TransGen s.Up a b := by
  rw [ancestor?, ancestors_plug h hn, Option.map_eq_some_iff] at ha
  obtain ⟨m, hm, rfl⟩ := ha
  obtain ⟨hmatch, xs, ys, heq, hxs⟩ := List.find?_eq_some_iff_append.1 hm
  have hmem : m ∈ C.above t := heq ▸ by simp
  have hfound := find?_of_mem_above h hmem
  have habove : ∀ {b : NodeId}, TransGen s.Up t.id b ↔ ∃ k ∈ C.above t, k.id = b := by
    intro b
    rw [above_iff h, ← Ctx.map_id_above C t, List.mem_map]
  refine ⟨⟨habove.2 ⟨m, hmem, rfl⟩, (matches_iff hfound).2 (by simpa using hmatch)⟩, fun b hb hbm => ?_⟩
  obtain ⟨k, hk, rfl⟩ := habove.1 hb
  have hkm := (matches_iff (find?_of_mem_above h hk)).1 hbm
  have hpair := pairwise_above h
  rw [heq] at hk hpair
  rcases List.mem_append.1 hk with hk | hk
  · simpa [hkm] using hxs k hk
  · rcases List.mem_cons.1 hk with rfl | hk
    · exact .inl rfl
    · exact .inr ((List.pairwise_cons.1 (List.pairwise_append.1 hpair).2.1).1 k hk)

theorem ancestor?_eq_none (h : s.Holds none (C.plug t)) (hn : (C.plug t).ids.Nodup) :
    s.ancestor? t.id tag test = none ↔ ∀ b, TransGen s.Up t.id b → ¬ s.Matches tag test b := by
  rw [ancestor?, ancestors_plug h hn, Option.map_eq_none_iff, List.find?_eq_none]
  constructor
  · intro hnone b hb hbm
    rw [above_iff h, ← Ctx.map_id_above C t, List.mem_map] at hb
    obtain ⟨k, hk, rfl⟩ := hb
    exact hnone k hk (by simpa using (matches_iff (find?_of_mem_above h hk)).1 hbm)
  · intro hnone m hm hmatch
    refine hnone m.id ?_ ((matches_iff (find?_of_mem_above h hm)).2 (by simpa using hmatch))
    rw [above_iff h, ← Ctx.map_id_above C t]
    exact List.mem_map_of_mem hm

/-! ## Downwards -/

/-- The search downwards goes over the nodes of the subtree. -/
theorem descendants_eq (h : s.Holds p u) (hf : u.Fits) (hn : u.ids.Nodup) :
    s.descendants u.id tag test false =
        (((u.kids.flatMap (Tree.nodes (some u.id))).filter fun m => m.tag = tag && test m).map Node.id) ∧
      s.descendants u.id tag test true =
        (if (s.find? u.id).any (fun m => m.tag = tag && test m) then [u.id] else []) ++
        s.descendants u.id tag test false := by
  have hkids : (s.children u.id).flatMap s.preorder = u.kids.flatMap (Tree.nodes (some u.id)) := by
    rw [h.children hf, List.flatMap_map]
    exact List.flatMap_congr fun k hk => (h.kid hk).preorder_eq (hf.kid hk) (Tree.nodup_kid hn hk)
  constructor
  · simp only [descendants, Bool.false_eq_true, if_false, hkids]
  · simp only [descendants, if_true, Bool.false_eq_true, if_false, hkids, h.preorder_eq hf hn,
      Tree.nodes_eq p u, h.top, Option.any_some, List.filter_cons]
    split <;> simp

theorem mem_descendants (h : s.Holds p u) (hf : u.Fits) (hn : u.ids.Nodup) :
    n ∈ s.descendants u.id tag test false ↔ s.Below u.id n ∧ s.Matches tag test n := by
  have hnodes : ∀ m ∈ u.kids.flatMap (Tree.nodes (some u.id)), s.find? m.id = some m := by
    intro m hm
    exact h m (Tree.nodes_eq p u ▸ List.mem_cons_of_mem _ hm)
  have hids : u.kids.flatMap Tree.ids = (u.kids.flatMap (Tree.nodes (some u.id))).map Node.id := by
    simp only [List.map_flatMap, Tree.map_id_nodes]
  rw [(descendants_eq h hf hn).1, h.below_iff hf, hids, List.mem_map, List.mem_map]
  constructor
  · rintro ⟨m, hm, rfl⟩
    obtain ⟨hm, hmatch⟩ := List.mem_filter.1 hm
    exact ⟨⟨m, hm, rfl⟩, (matches_iff (hnodes m hm)).2 (by simpa using hmatch)⟩
  · rintro ⟨⟨m, hm, rfl⟩, hmatch⟩
    exact ⟨m, List.mem_filter.2 ⟨hm, by simpa using (matches_iff (hnodes m hm)).1 hmatch⟩, rfl⟩

/-- The search downwards finds nodes in the order of the tree. -/
theorem descendants_sublist (h : s.Holds p u) (hf : u.Fits) (hn : u.ids.Nodup) :
    (s.descendants u.id tag test false).Sublist u.ids := by
  rw [(descendants_eq h hf hn).1, ← Tree.map_id_nodes p u, Tree.nodes_eq, List.map_cons]
  exact (List.filter_sublist.map _).cons _

/-- **Downward and upward search agree.** In a tree that passes the check, a document lists what is reached from
the root, each node once. For a node `a` of it, the search downwards lists, once and in the order of the document,
the matches strictly below `a`, and `a` itself in front of them if it is asked for and matches. A node is strictly
below `a` exactly if `a` is on the chain of links to parents above it, and the search upwards gives the match on
that chain that all other matches are above, if there is one. -/
theorem searches_agree (hs : s.ids.Nodup) (hr : s.verify r = .ok ()) :
    ∃ d, Document.capture s r = .ok d ∧ (d.nodes.map Node.id).Nodup ∧
      (∀ i, i ∈ d.nodes.map Node.id ↔ ∃ path, s.Reaches r path i) ∧
      ∀ a, (∃ path, s.Reaches r path a) → ∀ tag test,
        (s.descendants a tag test false).Sublist (d.nodes.map Node.id) ∧
        s.descendants a tag test true =
          (if (s.find? a).any (fun m => m.tag = tag && test m) then [a] else []) ++
          s.descendants a tag test false ∧
        (∀ n, n ∈ s.descendants a tag test false ↔ s.Below a n ∧ s.Matches tag test n) ∧
        (∀ n, (∃ path, s.Reaches r path n) → (s.Below a n ↔ TransGen s.Up n a)) ∧
        (s.ancestor? a tag test = none ↔ ∀ b, TransGen s.Up a b → ¬ s.Matches tag test b) ∧
        ∀ b, s.ancestor? a tag test = some b ↔
          (TransGen s.Up a b ∧ s.Matches tag test b) ∧
            ∀ c, TransGen s.Up a c → s.Matches tag test c → c = b ∨ TransGen s.Up b c := by
  obtain ⟨T, rfl, hf, hnd, hT⟩ := (verify_iff hs r).1 hr
  have hids : ((Document.ofTree T s.nextId).nodes.map Node.id) = T.ids := Tree.map_id_nodes none T
  refine ⟨Document.ofTree T s.nextId, ?_, hids ▸ hnd, fun i => hids ▸ hT.mem_ids_iff hf, fun a ha tag test => ?_⟩
  · rw [Document.capture, Document.captureWithin_eq hT hf (Nat.le_succ_of_le (hT.length_le hnd))]
    rfl
  have haT : a ∈ T.ids := (hT.mem_ids_iff hf).2 ha
  obtain ⟨C, u, rfl, rfl⟩ := Tree.exists_place haT
  have hu : s.Holds C.parent u := hT.inside
  have hfu := Ctx.fits_of_plug hf
  have hnu := ((Ctx.nodup_plug C u).1 hnd).2.1
  refine ⟨hids ▸ (descendants_sublist hu hfu hnu).trans (Ctx.ids_sublist_plug C u), (descendants_eq hu hfu hnu).2,
    fun n => mem_descendants hu hfu hnu, fun n hn => below_iff_above hT hf haT ((hT.mem_ids_iff hf).2 hn),
    ancestor?_eq_none hT hnd, fun b => ⟨ancestor?_plug hT hnd, fun hb => ?_⟩⟩
  -- the nearest match is unique, since no node of the tree is above itself
  cases hfound : s.ancestor? u.id tag test with
  | none => exact absurd hb.1.2 ((ancestor?_eq_none hT hnd).1 hfound b hb.1.1)
  | some c =>
    obtain ⟨⟨hc, hcm⟩, hcnear⟩ := ancestor?_plug hT hnd hfound
    rcases hcnear b hb.1.1 hb.1.2 with rfl | hcb
    · rfl
    · rcases hb.2 c hc hcm with rfl | hbc
      · rfl
      · have hcT : c ∈ (C.plug u).ids := (Ctx.mem_ids_plug C u c).2 (.inl (C.map_id_subset ((above_iff hT).1 hc)))
        exact absurd (hcb.trans hbc) (not_above_self hT hf hnd hcT)

/-- A sum below a branch of a function. -/
def branchSum : Store where
  nextId := ⟨8⟩
  nodes := [
    { id := ⟨0⟩, kind := .module [⟨1⟩] },
    { id := ⟨1⟩, parent := some ⟨0⟩, kind := .functionDef "f" [] [⟨2⟩] .external .view },
    { id := ⟨2⟩, parent := some ⟨1⟩, kind := .ifElse ⟨3⟩ [⟨4⟩] [] },
    { id := ⟨3⟩, parent := some ⟨2⟩, kind := .bool true },
    { id := ⟨4⟩, parent := some ⟨2⟩, kind := .exprStmt ⟨5⟩ },
    { id := ⟨5⟩, parent := some ⟨4⟩, kind := .binOp ⟨6⟩ .add ⟨7⟩ },
    { id := ⟨6⟩, parent := some ⟨5⟩, kind := .name "x" },
    { id := ⟨7⟩, parent := some ⟨5⟩, kind := .name "y" }]

/-- The function around the second operand is the nearest one above it, and has both operands below it. -/
theorem searches_agree_branchSum : branchSum.ids.Nodup ∧ branchSum.verify ⟨0⟩ = .ok () ∧
    branchSum.descendants ⟨1⟩ .name (fun _ => true) false = [⟨6⟩, ⟨7⟩] ∧
    branchSum.ancestor? ⟨7⟩ .functionDef (fun _ => true) = some ⟨1⟩ ∧ TransGen branchSum.Up ⟨7⟩ ⟨1⟩ ∧
      branchSum.Below ⟨1⟩ ⟨7⟩ := by
  have hnodup : branchSum.ids.Nodup := by decide
  have hverify : branchSum.verify ⟨0⟩ = .ok () := by decide +kernel
  have hfun : branchSum.Reaches ⟨0⟩ [0] ⟨1⟩ := .down rfl (.here _)
  have hright : branchSum.Reaches ⟨0⟩ [0, 0, 1, 0, 1] ⟨7⟩ :=
    .down rfl (.down rfl (.down rfl (.down rfl (.down rfl (.here _)))))
  have hup : branchSum.ancestor? ⟨7⟩ .functionDef (fun _ => true) = some ⟨1⟩ := by decide +kernel
  obtain ⟨d, -, -, -, hagree⟩ := searches_agree hnodup hverify
  have habove := (((hagree ⟨7⟩ ⟨_, hright⟩ .functionDef fun _ => true).2.2.2.2.2 ⟨1⟩).1 hup).1.1
  have hbelow := (hagree ⟨1⟩ ⟨_, hfun⟩ .functionDef fun _ => true).2.2.2.1 ⟨7⟩ ⟨_, hright⟩
  exact ⟨hnodup, hverify, by decide +kernel, hup, habove, hbelow.2 habove⟩

end Store

end ContractTree
