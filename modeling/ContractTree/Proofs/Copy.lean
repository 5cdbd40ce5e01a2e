import ContractTree.Proofs.Ends
import ContractTree.Proofs.Linked

/-!
Copies of subtrees. What is copied is compared with its copy without identities (`Tree.shape`). A copy is made from
the children up: `Store.Copies` says what is known when the trees of a list have been copied. Copies of one list
and then of another are copies of both (`Copies.append`), and the copies of the children get a copy of their parent
(`Copies.owned`). So a subtree that is well-linked is copied as a whole, under identities that were not handed out
before, beside a store that is left as it was (`Edit.deepCopy_faithful`).
-/

namespace ContractTree

/-! ## Trees without identities -/

namespace Tree

mutual

/-- The tree without its identities, with `0` in place of each. -/
def shape : Tree → Tree
  | .node _ ty label heads body orelse => .node ⟨0⟩ ty label (shapeAll heads) (shapeAll body) (shapeAll orelse)

def shapeAll : List Tree → List Tree
  | [] => []
  | t :: ts => shape t :: shapeAll ts

end

theorem shapeAll_eq (ts : List Tree) : shapeAll ts = ts.map shape := by
  induction ts with
  | nil => rfl
  | cons t ts ih => rw [shapeAll, ih, List.map_cons]

theorem shape_withId (t : Tree) (i : NodeId) : (node i t.ty t.label t.heads t.body t.orelse).shape = t.shape := by
  cases t
  rfl

end Tree

theorem Frame.shape_plug {f : Frame} {k u : Tree} (h : u.shape = k.shape) :
    (f.plug [u]).shape = (f.plug [k]).shape := by
  unfold plug
  split <;> simp [Tree.shape, Tree.shapeAll_eq, h]

namespace Store

variable {s s' s'' : Store} {ts ts' us us' : List Tree} {t u : Tree} {p : Option NodeId} {i : NodeId}

/-! ## Stores that grow -/

theorem find?_of_nodes_prefix (h : s.nodes <+: s'.nodes) (hi : i ∈ s.ids) : s'.find? i = s.find? i := by
  obtain ⟨new, hnew⟩ := h
  obtain ⟨n, hn⟩ := Option.isSome_iff_exists.1 (contains_iff.2 hi)
  rw [hn, find?, ← hnew, List.find?_append, show s.nodes.find? _ = some n from hn]
  rfl

theorem Holds.of_isPrefix (h : s.Holds p t) (hs : s.nodes <+: s'.nodes) : s'.Holds p t :=
  h.congr fun _ hi => find?_of_nodes_prefix hs (h.mem_ids hi)

/-- The store after a node was made over trees that had no parent. -/
def withOwner (s : Store) (v : Tree) : Store :=
  (s.added { id := s.nextId, ty := v.ty, kind := v.kind }).adopt s.nextId (v.kids.map Tree.id)

section WithOwner

variable {v : Tree}

@[simp] theorem ids_withOwner : (s.withOwner v).ids = s.ids ++ [s.nextId] := by simp [withOwner]

theorem find?_withOwner (hfresh : s.nextId ∉ s.ids) : (s.withOwner v).find? i =
    (if i = s.nextId then some { id := s.nextId, ty := v.ty, kind := v.kind } else s.find? i).map fun m =>
      if i ∈ v.kids.map Tree.id then { m with parent := some s.nextId } else m := by
  rw [withOwner, find?_adopt, show ∀ n, (s.added n).find? i = (s.push n).find? i from fun _ => rfl, find?_push]
  by_cases hi : i = s.nextId
  · subst hi
    rw [find?_eq_none_iff.2 hfresh]
    simp
  · simp [hi, Ne.symm hi]

/-- The trees are below the new node, which no node is above. -/
theorem holds_withOwner (hfresh : s.nextId ∉ s.ids) (hn : (v.kids.flatMap Tree.ids).Nodup)
    (hkids : ∀ k ∈ v.kids, s.Holds none k) :
    (s.withOwner v).Holds none (.node s.nextId v.ty v.label v.heads v.body v.orelse) := by
  have hids : ∀ k ∈ v.kids, ∀ i ∈ k.ids, i ≠ s.nextId := fun k hk i hi he => hfresh (he ▸ (hkids k hk).mem_ids hi)
  rw [holds_iff]
  refine ⟨?_, fun k hk => ?_⟩
  · have htop : s.nextId ∉ v.kids.map Tree.id := fun hm => by
      obtain ⟨k, hk, he⟩ := List.mem_map.1 hm
      exact hids k hk k.id k.id_mem_ids he
    rw [find?_withOwner hfresh]
    simp only [Tree.id_node, if_pos, htop, if_false]
    rfl
  · have hk' : k ∈ v.kids := hk
    rw [holds_iff]
    refine ⟨?_, fun j hj => ?_⟩
    · rw [find?_withOwner hfresh, if_neg (hids k hk' _ k.id_mem_ids), (hkids k hk').top, Option.map_some,
        if_pos (List.mem_map_of_mem hk')]
      rfl
    · -- below its top, no node of a copy is adopted
      refine ((hkids k hk').kid hj).congr fun i hi => ?_
      have hik : i ∈ k.ids := Tree.ids_subset_of_mem_kids hj hi
      have hout : i ∉ v.kids.map Tree.id := fun hm => by
        obtain ⟨k', hk'', rfl⟩ := List.mem_map.1 hm
        obtain rfl := Tree.eq_of_mem_ids hn hk' hk'' hik
        have hnk : k'.ids.Nodup := (List.nodup_flatMap.1 hn).1 k' hk'
        rw [Tree.ids_eq, List.nodup_cons] at hnk
        exact hnk.1 (List.mem_flatMap.2 ⟨j, hj, hi⟩)
      rw [find?_withOwner hfresh, if_neg (hids k hk' i hik)]
      simp [hout]

end WithOwner

/-- The trees `us` are copies of `ts` that were made between `s` and `s'`, and nothing else was done. -/
structure Copies (s s' : Store) (ts us : List Tree) : Prop where
  shape : us.map Tree.shape = ts.map Tree.shape
  fits : ∀ u ∈ us, u.Fits
  holds : ∀ u ∈ us, s'.Holds none u
  nodup : (us.flatMap Tree.ids).Nodup
  fresh : ∀ i ∈ us.flatMap Tree.ids, s.nextId ≤ i
  counter : s'.nextId.toNat = s.nextId.toNat + (ts.flatMap Tree.ids).length
  below : ∀ i ∈ s'.ids, i < s'.nextId
  old : s.nodes <+: s'.nodes

namespace Copies

theorem nil (hb : ∀ i ∈ s.ids, i < s.nextId) : Copies s s [] [] :=
  ⟨rfl, by simp, by simp, by simp, by simp, rfl, hb, List.prefix_refl _⟩

theorem append (h : Copies s s' ts us) (h' : Copies s' s'' ts' us') : Copies s s'' (ts ++ ts') (us ++ us') where
  shape := by rw [List.map_append, List.map_append, h.shape, h'.shape]
  fits := List.forall_mem_append.2 ⟨h.fits, h'.fits⟩
  holds := List.forall_mem_append.2 ⟨fun u hu => (h.holds u hu).of_isPrefix h'.old, h'.holds⟩
  nodup := by
    rw [List.flatMap_append, List.nodup_append']
    refine ⟨h.nodup, h'.nodup, fun i hi hi' => ?_⟩
    -- the copies made first are below the counter, and those made later are not
    obtain ⟨u, hu, hiu⟩ := List.mem_flatMap.1 hi
    have hlt := NodeId.lt_iff.1 (h.below i ((h.holds u hu).mem_ids hiu))
    have hle : s'.nextId.toNat ≤ i.toNat := h'.fresh i hi'
    omega
  fresh i hi := by
    rw [List.flatMap_append, List.mem_append] at hi
    rcases hi with hi | hi
    · exact h.fresh i hi
    · have hcount := h.counter
      have hle : s'.nextId.toNat ≤ i.toNat := h'.fresh i hi
      show s.nextId.toNat ≤ i.toNat
      omega
  counter := by
    rw [h'.counter, h.counter, List.flatMap_append, List.length_append, Nat.add_assoc]
  below := h'.below
  old := h.old.trans h'.old

/-- A node over copies of the children of a tree makes them a copy of the tree. -/
theorem owned {v : Tree} (h : Copies s s' t.kids v.kids) (hlt : s'.nextId.next?.isSome) (hv : v.Fits)
    (hshape : v.shape = t.shape) (hold : ∀ i ∈ s.ids, i < s.nextId) :
    Copies s (s'.withOwner v) [t] [.node s'.nextId v.ty v.label v.heads v.body v.orelse] := by
  have hfresh : s'.nextId ∉ s'.ids := fun hi => Nat.lt_irrefl _ (h.below _ hi)
  have hcount := h.counter
  obtain ⟨next, hnext⟩ := Option.isSome_iff_exists.1 hlt
  obtain ⟨hval, hnat⟩ := NodeId.next?_eq_some hnext
  have hnext' : (s'.withOwner v).nextId.toNat = s'.nextId.toNat + 1 := by
    rw [← hnat, hval]
    rfl
  have hids : [Tree.node s'.nextId v.ty v.label v.heads v.body v.orelse].flatMap Tree.ids =
      s'.nextId :: v.kids.flatMap Tree.ids := by
    rw [List.flatMap_singleton, Tree.ids_eq]
    rfl
  refine ⟨by simp [Tree.shape_withId, hshape], ?_, ?_, ?_, ?_, ?_, ?_, ?_⟩
  · rw [List.forall_mem_singleton, Tree.fits_iff]
    exact (Tree.fits_iff v).1 hv
  · rw [List.forall_mem_singleton]
    exact holds_withOwner hfresh h.nodup h.holds
  · rw [hids, List.nodup_cons]
    refine ⟨fun hm => ?_, h.nodup⟩
    obtain ⟨k, hk, hi⟩ := List.mem_flatMap.1 hm
    exact hfresh ((h.holds k hk).mem_ids hi)
  · rw [hids, List.forall_mem_cons]
    exact ⟨show s.nextId.toNat ≤ s'.nextId.toNat by omega, h.fresh⟩
  · rw [hnext', hcount, List.flatMap_singleton, Tree.ids_eq, List.length_cons, Nat.add_assoc]
  · rw [ids_withOwner, List.forall_mem_append, List.forall_mem_singleton]
    refine ⟨fun i hi => ?_, ?_⟩
    · have := NodeId.lt_iff.1 (h.below i hi)
      rw [NodeId.lt_iff]
      omega
    · rw [NodeId.lt_iff]
      omega
  · -- only copies are adopted
    obtain ⟨new, hnew⟩ := h.old
    have hkeep : s.nodes.map (fun m => if m.id ∈ v.kids.map Tree.id
        then { m with parent := some s'.nextId } else m) = s.nodes := by
      conv_rhs => rw [← List.map_id s.nodes]
      refine List.map_congr_left fun m hm => if_neg fun hmem => ?_
      obtain ⟨k, hk, he⟩ := List.mem_map.1 hmem
      have hle : s.nextId.toNat ≤ k.id.toNat := h.fresh k.id (List.mem_flatMap.2 ⟨k, hk, k.id_mem_ids⟩)
      have hlt : m.id.toNat < s.nextId.toNat := hold m.id (List.mem_map_of_mem hm)
      rw [he] at hle
      omega
    show s.nodes <+: List.map _ (s'.nodes ++ _)
    rw [← hnew, List.append_assoc, List.map_append, hkeep]
    exact List.prefix_append _ _

end Copies

end Store

/-! ## The edit -/

namespace Edit

open Store (Copies)

variable {s s₀ : Store} {t v : Tree} {p : Option NodeId} {ts us : List Tree}

/-- A node over trees without a parent is made unless there is no identity left. -/
theorem ends_alloc_over (hv : v.Fits) (hkids : ∀ k ∈ v.kids, s.Holds none k) :
    Ends (alloc v.kind v.ty) s (fun c s' => c = s.nextId ∧ s.nextId.next?.isSome ∧ s' = s.withOwner v)
      fun e _ => e = .idsExhausted ∧ s.nextId = .last := by
  have hfree : ∀ i ∈ v.kind.children, s.Free i := by
    rw [hv.children_kind, List.forall_mem_map]
    intro k hk
    exact ⟨(hkids k hk).mem_ids k.id_mem_ids, by rw [Store.owner?, (hkids k hk).parent?]; rfl⟩
  cases hnext : s.nextId.next? with
  | none =>
    refine (ends_alloc v.kind v.ty).mono (fun _ _ h => ?_) fun e _ h => ⟨?_, NodeId.next?_eq_none.1 hnext⟩
    · rw [hnext] at h
      exact absurd h.2.1 (by simp)
    · rcases h.2 with he | ⟨i, hi, hi'⟩
      · exact he
      · exact absurd (hfree i hi) hi'
  | some next =>
    unfold alloc
    have hnone : ¬ ∃ i ∈ v.kind.children, ¬ s.Free i := fun h => h.elim fun i hi => hi.2 (hfree i hi.1)
    refine (ends_forM_requireFree v.kind.children).asked (fun _ h => absurd h hnone) fun _ _ => ?_
    unfold insertNew reserve
    simp only [bind_assoc, ends_bind, ends_get, hnext, ends_modify, ends_pure]
    refine ⟨trivial, rfl, ?_⟩
    rw [Store.withOwner, Store.added, ← (NodeId.next?_eq_some hnext).1, hv.children_kind]
    rfl

/-- The work ends with copies of the trees, and says `Q` of them, or there are not enough identities for them. -/
def Copying {α : Type} (x : Edit α) (s₀ s : Store) (ts : List Tree) (Q : α → List Tree → Prop) : Prop :=
  Ends x s (fun a s' => ∃ us, Q a us ∧ Copies s₀ s' ts us) fun e _ =>
    e = .idsExhausted ∧ NodeId.last.toNat < s₀.nextId.toNat + (ts.flatMap Tree.ids).length

/-- The children that are left are copied one after the other, and each copy takes the place of its original. -/
theorem copying_kids {fuel : Nat} {done rest : List Tree} (hold : ∀ i ∈ s₀.ids, i < s₀.nextId)
    (hcopy : ∀ k ∈ rest, ∀ s : Store, (∀ i ∈ s.ids, i < s.nextId) → (∃ p, s.Holds p k) →
      Copying (copyWithin fuel k.id) s s [k] fun c us => us.map Tree.id = [c])
    (hrest : ∀ k ∈ rest, ∃ p, s₀.Holds p k) (hn : (rest.flatMap Tree.ids).Nodup) (hv : v.Fits)
    (hkids : v.kids = us ++ rest) (h : Copies s₀ s done us) :
    Copying ((rest.map Tree.id).foldlM (fun kind child => do
        let copy ← copyWithin fuel child
        return (kind.replaceChild? child copy).getD kind) v.kind) s₀ s (done ++ rest)
      fun kind us' => ∃ v' : Tree, v'.Fits ∧ v'.shape = v.shape ∧ v'.kind = kind ∧ v'.kids = us' := by
  induction rest generalizing v us done s with
  | nil =>
    rw [List.append_nil] at hkids ⊢
    exact ⟨us, ⟨v, hv, rfl, rfl, hkids⟩, h⟩
  | cons k rest ih =>
    obtain ⟨p, hk⟩ := hrest k List.mem_cons_self
    unfold Copying
    rw [List.map_cons, List.foldlM_cons, bind_assoc, ends_bind]
    refine (hcopy k List.mem_cons_self s h.below ⟨p, hk.of_isPrefix h.old⟩).mono ?_ ?_
    · rintro c s' ⟨us', hc, hcopies⟩
      obtain ⟨u, rfl, rfl⟩ : ∃ u : Tree, us' = [u] ∧ u.id = c := by
        obtain ⟨u, us', rfl, hu, hnil⟩ := List.map_eq_cons_iff.1 hc
        exact ⟨u, by rw [List.map_eq_nil_iff.1 hnil], hu⟩
      have hnv : (v.kids.flatMap Tree.ids).Nodup := by
        rw [hkids, List.flatMap_append, List.nodup_append']
        refine ⟨h.nodup, hn, fun i hi hi' => ?_⟩
        obtain ⟨k', hk', hik⟩ := List.mem_flatMap.1 hi'
        obtain ⟨q, hq⟩ := hrest k' hk'
        exact Nat.lt_irrefl _ (Nat.lt_of_lt_of_le (hold i (hq.mem_ids hik)) (h.fresh i hi))
      obtain ⟨f, rfl⟩ := Tree.exists_frame (t := v) (k := k) (by simp [hkids])
      rw [Frame.kids_plug, List.append_assoc, List.singleton_append] at hkids hnv
      obtain ⟨hbefore, -, hafter⟩ := Tree.split_unique hkids hnv k.id_mem_ids k.id_mem_ids
      have hnotin : k.id ∉ f.before.map Tree.id := by
        intro hm
        obtain ⟨k', hk', he⟩ := List.mem_map.1 hm
        rw [List.flatMap_append, List.nodup_append'] at hnv
        exact hnv.2.2 (List.mem_flatMap.2 ⟨k', hk', he ▸ k'.id_mem_ids⟩) (by simp [k.id_mem_ids])
      have hu : u.Fits := hcopies.fits u List.mem_cons_self
      rw [Frame.kind_plug, List.map_cons, List.map_nil, pure_bind, Frame.replaceChild?_kind hv hnotin,
        Option.getD_some]
      have hshape : u.shape = k.shape := by simpa using hcopies.shape
      have hstep := @ih s' (f.plug [u]) (us ++ [u]) (done ++ [k])
        (fun k' hk' => hcopy k' (List.mem_cons_of_mem _ hk')) (fun k' hk' => hrest k' (List.mem_cons_of_mem _ hk'))
        (by rw [List.flatMap_cons, List.nodup_append'] at hn; exact hn.2.1)
        (Frame.plug_fits hv hu) (by rw [Frame.kids_plug, hbefore, hafter]) (h.append hcopies)
      rw [Frame.kind_plug, List.map_cons, List.map_nil, List.append_assoc, List.singleton_append] at hstep
      refine hstep.mono ?_ fun _ _ he => he
      rintro kind s'' ⟨us'', ⟨v', hv', hs', hrest'⟩, hc'⟩
      exact ⟨us'', ⟨v', hv', hs'.trans (Frame.shape_plug hshape), hrest'⟩, hc'⟩
    · rintro e s' ⟨he, hlt⟩
      refine ⟨he, ?_⟩
      have := h.counter
      simp only [List.flatMap_append, List.flatMap_cons, List.flatMap_nil, List.length_append,
        List.append_nil] at hlt ⊢
      omega

theorem copying_copyWithin {fuel : Nat} (hold : ∀ i ∈ s.ids, i < s.nextId) (hf : t.Fits) (hn : t.ids.Nodup)
    (hh : s.Holds p t) (hfuel : t.ids.length ≤ fuel) :
    Copying (copyWithin fuel t.id) s s [t] fun c us => us.map Tree.id = [c] := by
  induction t generalizing s p fuel with
  | step t ih =>
    cases fuel with
    | zero => simp [Tree.ids_eq t] at hfuel
    | succ fuel =>
      have hcopy : ∀ k ∈ t.kids, ∀ s : Store, (∀ i ∈ s.ids, i < s.nextId) → (∃ p, s.Holds p k) →
          Copying (copyWithin fuel k.id) s s [k] fun c us => us.map Tree.id = [c] := by
        rintro k hk s hb ⟨p, hp⟩
        have := Store.length_ids_kid_lt hk
        exact ih k hk hb (hf.kid hk) (Tree.nodup_kid hn hk) hp (by omega)
      have hnk : (t.kids.flatMap Tree.ids).Nodup := by
        rw [Tree.ids_eq, List.nodup_cons] at hn
        exact hn.2
      unfold Copying copyWithin
      refine ends_node.asked (fun _ h => absurd (hh.mem_ids t.id_mem_ids) h) fun n hfound => ?_
      obtain rfl := Option.some.inj (hfound.symm.trans hh.top)
      rw [Tree.root_kind, Node.children, Tree.root_kind, hf.children_kind, Tree.root_ty, ends_bind]
      have hfold := copying_kids hold hcopy (fun k hk => ⟨_, hh.kid hk⟩) hnk hf (List.nil_append _).symm
        (.nil hold)
      refine hfold.mono ?_ ?_
      · rintro kind s' ⟨us, ⟨v, hv, hshape, rfl, rfl⟩, hcopies⟩
        rw [List.nil_append] at hcopies
        have hty : v.ty = t.ty := by
          have := congrArg Tree.ty hshape
          cases v
          cases t
          exact this
        rw [← hty]
        refine (ends_alloc_over hv hcopies.holds).mono ?_ ?_
        · rintro c s'' ⟨rfl, hlt, rfl⟩
          exact ⟨_, rfl, hcopies.owned hlt hv hshape hold⟩
        · rintro e s'' ⟨he, hlast⟩
          refine ⟨he, ?_⟩
          have := hcopies.counter
          rw [hlast] at this
          simp only [List.flatMap_singleton, Tree.ids_eq t, List.length_cons]
          omega
      · rintro e s' ⟨he, hlt⟩
        refine ⟨he, ?_⟩
        simp only [List.nil_append, List.flatMap_singleton, Tree.ids_eq t, List.length_cons] at hlt ⊢
        omega

/-- **A copy is faithful and detached.** Below a well-linked node there is a tree. It is copied unless fewer
identities are left than it has nodes: the copy has no parent and no flaw, it is the same tree but for the
identities, which are those that were handed out next, and what was registered before is still registered, in its
place and unchanged. -/
theorem deepCopy_faithful (hold : ∀ i ∈ s.ids, i < s.nextId) {n : NodeId} (hn : s.Linked n) :
    ∃ t : Tree, s.tree? n = some t ∧
      if s.nextId.toNat + t.ids.length ≤ NodeId.last.toNat then
        ∃ c s' u, deepCopy n s = .ok c s' ∧ s'.verify c = .ok () ∧ s'.parent? c = none ∧ s'.tree? c = some u ∧
          u.shape = t.shape ∧ (∀ i ∈ u.ids, i ∉ s.ids ∧ s.nextId ≤ i) ∧
          s'.nextId.toNat = s.nextId.toNat + t.ids.length ∧ s.nodes <+: s'.nodes
      else ∃ s', deepCopy n s = .error .idsExhausted s' := by
  obtain ⟨t, rfl, hf, hnd, hh⟩ := Store.linked_iff.1 hn
  refine ⟨t, hh.tree?_eq hf hnd, ?_⟩
  have hspec : Copying (copyWithin (s.size + 1) t.id) s s [t] fun c us => us.map Tree.id = [c] :=
    copying_copyWithin hold hf hnd hh (Nat.le_succ_of_le (hh.length_le hnd))
  have hrun : deepCopy t.id s = copyWithin (s.size + 1) t.id s := rfl
  rw [Copying, List.flatMap_singleton] at hspec
  cases hcopy : copyWithin (s.size + 1) t.id s with
  | ok c s' =>
    obtain ⟨us, hc, h⟩ := hspec.of_ok hcopy
    obtain ⟨u, us, rfl, rfl, hnil⟩ := List.map_eq_cons_iff.1 hc
    obtain rfl := List.map_eq_nil_iff.1 hnil
    have hcounter := h.counter
    rw [List.flatMap_singleton] at hcounter
    have hlast : s'.nextId.toNat ≤ NodeId.last.toNat := s'.nextId.le_last
    have hu := h.holds u List.mem_cons_self
    have hfu := h.fits u List.mem_cons_self
    have hnu : u.ids.Nodup := by simpa using h.nodup
    have hfresh : ∀ i ∈ u.ids, s.nextId ≤ i := by simpa using h.fresh
    rw [if_pos (by omega)]
    refine ⟨u.id, s', u, hrun.trans hcopy, hu.verify hfu hnu, hu.parent?,
      hu.tree?_eq hfu hnu, by simpa using h.shape,
      fun i hi => ⟨fun hmem => ?_, hfresh i hi⟩, hcounter, h.old⟩
    exact Nat.lt_irrefl _ (Nat.lt_of_lt_of_le (hold i hmem) (hfresh i hi))
  | error e s' =>
    obtain ⟨rfl, hlt⟩ := hspec.of_error hcopy
    rw [if_neg (by omega)]
    exact ⟨s', hrun.trans hcopy⟩

/-- A statement with all three lists of children. -/
def branch : Tree :=
  .node ⟨2⟩ none .ifElse [.leaf ⟨3⟩ (some .bool) (.name "ok")] [.leaf ⟨4⟩ none .pass]
    [.node ⟨5⟩ none .ret [.leaf ⟨6⟩ (some (.uint 8)) (.int 1)] [] []]

/-- A contract with that statement, in a store that had more nodes. -/
def branched : Tree :=
  .node ⟨0⟩ none .module [] [.node ⟨1⟩ none (.functionDef "f" .external .pure) [] [branch] []] []

theorem deepCopy_faithful_branch : (Store.ofTree branched ⟨9⟩).Linked ⟨2⟩ ∧
    ∃ c s' u, deepCopy ⟨2⟩ (.ofTree branched ⟨9⟩) = .ok c s' ∧ s'.verify c = .ok () ∧ s'.tree? c = some u ∧
      u.shape = branch.shape ∧ s'.nextId = ⟨14⟩ ∧ (Store.ofTree branched ⟨9⟩).nodes <+: s'.nodes := by
  have hholds : (Store.ofTree branched ⟨9⟩).Holds none branched := fun _ hm => Store.find?_of_mem (by decide) hm
  have hbranch : (Store.ofTree branched ⟨9⟩).Holds (some ⟨1⟩) branch :=
    Store.Holds.kid (hholds.kid (k := .node ⟨1⟩ none (.functionDef "f" .external .pure) [] [branch] [])
      List.mem_cons_self) List.mem_cons_self
  have hlinked : (Store.ofTree branched ⟨9⟩).Linked ⟨2⟩ :=
    Store.linked_iff.2 ⟨branch, rfl, by simp [branch, Tree.leaf, Tree.Fits, Tree.FitsAll, Label.Fits], by decide,
      hbranch⟩
  refine ⟨hlinked, ?_⟩
  obtain ⟨t, ht, h⟩ := deepCopy_faithful (by decide) hlinked
  obtain rfl : branch = t := Option.some.inj ht
  rw [if_pos (by decide)] at h
  obtain ⟨c, s', u, hcopy, hv, -, hu, hshape, -, hnext, hold⟩ := h
  exact ⟨c, s', u, hcopy, hv, hu, hshape, NodeId.toNat_inj hnext, hold⟩

end Edit

end ContractTree
