import ContractTree.Proofs.DocumentText
import ContractTree.Proofs.Ends
import ContractTree.Proofs.Linked

/-!
Saving and loading a tree. A tree that is written is read back with every node as it was, unless a type in it is
nested too deep for the reader, and then it is refused (`Document.load_text`). What is read back is the tree and
nothing else: the nodes that can be reached from the root, in pre-order (`Document.load_save`).
-/

namespace ContractTree

variable {s : Store} {t : Tree} {p : Option NodeId} {next : NodeId}

@[simp] theorem Store.ids_ofTree : (Store.ofTree t next).ids = t.ids := Tree.map_id_nodes none t

theorem Store.holds_ofTree (hn : t.ids.Nodup) : (Store.ofTree t next).Holds none t :=
  fun _ hm => find?_of_mem (ids_ofTree.symm ▸ hn) hm

namespace Document

/-! ## Saving -/

theorem captureWithin_eq {fuel : Nat} (h : s.Holds p t) (hf : t.Fits) (hfuel : t.ids.length ≤ fuel) :
    captureWithin s fuel t.id = .ok (t.nodes p) := by
  induction t generalizing p fuel with
  | step t ih =>
    cases fuel with
    | zero => simp [Tree.ids_eq t] at hfuel
    | succ fuel =>
      have hkid : ∀ k ∈ t.kids, captureWithin s fuel k.id = .ok (k.nodes (some t.id)) := by
        intro k hk
        have := Store.length_ids_kid_lt hk
        exact ih k hk (h.kid hk) (hf.kid hk) (by omega)
      have hkids : ∀ ks ⊆ t.kids, (ks.map Tree.id).mapM (captureWithin s fuel) =
          .ok (ks.map (Tree.nodes (some t.id))) := by
        intro ks hks
        induction ks with
        | nil => rfl
        | cons k ks ihks =>
          rw [List.cons_subset] at hks
          rw [List.map_cons, List.mapM_cons, hkid k hks.1, ihks hks.2]
          rfl
      have hchildren : (t.root p).children = t.kids.map Tree.id := hf.children_kind
      rw [captureWithin, Store.node, h.top, Tree.nodes_eq, List.flatMap_def]
      show ((t.root p).children.mapM (captureWithin s fuel) >>= fun below => pure (t.root p :: below.flatten)) = _
      rw [hchildren, hkids t.kids (List.Subset.refl _)]
      rfl

/-- The document of a tree. -/
def ofTree (t : Tree) (next : NodeId) : Document := ⟨t.id, next, t.nodes none⟩

theorem save_eq (h : s.Holds none t) (hf : t.Fits) (hn : t.ids.Nodup) :
    save s t.id = .ok (ofTree t s.nextId).text := by
  rw [save, capture, captureWithin_eq h hf (Nat.le_succ_of_le (h.length_le hn))]
  rfl

/-! ## Loading -/

/-- A list of nodes that can be registered one after the other, beside the identities in `used`. -/
structure Registrable (used : List NodeId) (nodes : List Node) : Prop where
  nodup : (used ++ nodes.map Node.id).Nodup
  counted : ∀ n ∈ nodes, n.id ≠ .last

/-- Nodes are registered in order. The first node whose identity is taken, or is the last one, ends it. -/
theorem ends_forM_register (hs : s.ids.Nodup) (nodes : List Node) :
    Ends (nodes.forM fun n => do let _ ← Edit.register n : Edit Unit) s
      (fun _ s' => Registrable s.ids nodes ∧ s' = nodes.foldl Store.enrolled s)
      fun e _ => ∃ before n after, nodes = before ++ n :: after ∧ Registrable s.ids before ∧
        (n.id ∈ s.ids ++ before.map Node.id ∧ e = .duplicateId n.id ∨
          n.id ∉ s.ids ++ before.map Node.id ∧ n.id = .last ∧ e = .idsExhausted) := by
  induction nodes generalizing s with
  | nil => exact ⟨⟨by simpa using hs, by simp⟩, rfl⟩
  | cons n nodes ih =>
    show Ends ((do let _ ← Edit.register n : Edit Unit) >>= fun _ => _) s _ _
    rw [ends_bind, ends_bind]
    refine (Edit.ends_register n).mono ?_ ?_
    · rintro _ _ ⟨-, hn, hlast, rfl⟩
      have hcons {l : List Node} (h : Registrable (s.enrolled n).ids l) : Registrable s.ids (n :: l) :=
        ⟨by simpa using h.nodup, List.forall_mem_cons.2 ⟨hlast, h.counted⟩⟩
      have hnd : (s.enrolled n).ids.Nodup := by
        rw [Store.ids_enrolled]
        exact List.nodup_append'.2 ⟨hs, List.nodup_singleton _, List.disjoint_singleton.2 hn⟩
      refine (ih hnd).mono (fun _ _ ⟨h, he⟩ => ⟨hcons h, he⟩) ?_
      rintro e _ ⟨before, m, after, rfl, hb, hm⟩
      exact ⟨n :: before, m, after, rfl, hcons hb, by simpa using hm⟩
    · rintro e _ ⟨-, he⟩
      exact ⟨[], n, nodes, rfl, ⟨by simpa using hs, by simp⟩, by simpa using he⟩

theorem nodes_foldl_enrolled (nodes : List Node) (s : Store) :
    (nodes.foldl Store.enrolled s).nodes = s.nodes ++ nodes := by
  induction nodes generalizing s with
  | nil => simp
  | cons n nodes ih => simp [ih, Store.enrolled]

theorem sound_foldl_enrolled {nodes : List Node} (hs : s.Sound) (h : Registrable s.ids nodes) :
    (nodes.foldl Store.enrolled s).Sound := by
  induction nodes generalizing s with
  | nil => exact hs
  | cons n nodes ih =>
    have hn : n.id ∉ s.ids := fun hmem => (List.nodup_append'.1 h.nodup).2.2 hmem (by simp)
    obtain ⟨hlast, hrest⟩ := List.forall_mem_cons.1 h.counted
    exact ih (hs.enrolled hn hlast) ⟨by simpa using h.nodup, hrest⟩

/-- Nodes that are registered below the counter leave it as it is. -/
theorem foldl_enrolled_of_lt {nodes : List Node} (hlt : ∀ n ∈ nodes, n.id < s.nextId) :
    nodes.foldl Store.enrolled s = { s with nodes := s.nodes ++ nodes } := by
  induction nodes generalizing s with
  | nil => simp
  | cons n nodes ih =>
    obtain ⟨hn, hrest⟩ := List.forall_mem_cons.1 hlt
    have hle : ¬ s.nextId ≤ n.id := Nat.not_le.2 hn
    have he : s.enrolled n = { s with nodes := s.nodes ++ [n] } := by rw [Store.enrolled, if_neg hle]
    rw [List.foldl_cons, he, ih (s := { s with nodes := s.nodes ++ [n] }) hrest]
    simp

/-- Nodes that can be registered are. -/
theorem forM_register {nodes : List Node} (hs : s.ids.Nodup) (h : Registrable s.ids nodes) :
    (nodes.forM fun n => do let _ ← Edit.register n : Edit Unit) s = .ok () (nodes.foldl Store.enrolled s) := by
  obtain ⟨_, s', hok, -, rfl⟩ := (ends_forM_register hs nodes).exists_ok <| by
    rintro e _ ⟨before, n, after, rfl, -, hn | ⟨-, hlast, -⟩⟩
    · have hnd : ((s.ids ++ before.map Node.id) ++ n.id :: after.map Node.id).Nodup := by simpa using h.nodup
      exact (List.nodup_append'.1 hnd).2.2 hn.1 (by simp)
    · exact h.counted n (by simp) hlast
  exact hok

theorem toStore_of_registrable {d : Document} (h : Registrable [] d.nodes) :
    d.toStore = (do
      (d.nodes.foldl Store.enrolled { nextId := d.nextId }).verify d.root
      return d.nodes.foldl Store.enrolled { nextId := d.nextId }) := by
  rw [toStore, forM_register (s := { nextId := d.nextId }) (by simp [Store.ids]) h]

theorem toStore_ofTree (hf : t.Fits) (hn : t.ids.Nodup) (hlt : ∀ i ∈ t.ids, i < next) :
    (ofTree t next).toStore = .ok (.ofTree t next) := by
  have hids : (t.nodes none).map Node.id = t.ids := Tree.map_id_nodes none t
  have hnodes : ∀ n ∈ t.nodes none, n.id < next := fun n hm => hlt n.id (hids ▸ List.mem_map_of_mem hm)
  have hreg : Registrable [] (t.nodes none) :=
    ⟨by rwa [List.nil_append, hids], fun n hm hlast => Nat.not_lt.2 next.le_last (hlast ▸ hnodes n hm)⟩
  have hv : (Store.ofTree t next).verify t.id = .ok () := (Store.holds_ofTree hn).verify hf hn
  rw [toStore_of_registrable hreg]
  show (do
    ((t.nodes none).foldl Store.enrolled { nextId := next }).verify t.id
    return (t.nodes none).foldl Store.enrolled { nextId := next }) = _
  rw [foldl_enrolled_of_lt (s := { nextId := next }) hnodes]
  show ((Store.ofTree t next).verify t.id >>= fun _ => pure (Store.ofTree t next)) = _
  rw [hv]
  rfl

/-- A tree that was written is read back exactly if none of its types is nested too deep. -/
theorem load_text (hf : t.Fits) (hn : t.ids.Nodup) (hlt : ∀ i ∈ t.ids, i < next) :
    load (ofTree t next).text =
      if ∀ n ∈ t.nodes none, ∀ ty ∈ n.ty, ty.toJson.depth ≤ 124
      then .ok (.ofTree t next, t.id) else .error .unreadable := by
  rw [load, parse?_text]
  by_cases h : ∀ n ∈ (ofTree t next).nodes, ∀ ty ∈ n.ty, ty.toJson.depth ≤ 124
  · rw [if_pos h, if_pos (show ∀ n ∈ t.nodes none, ∀ ty ∈ n.ty, ty.toJson.depth ≤ 124 from h)]
    simp only [toStore_ofTree hf hn hlt]
    rfl
  · rw [if_neg h, if_neg (show ¬ ∀ n ∈ t.nodes none, ∀ ty ∈ n.ty, ty.toJson.depth ≤ 124 from h)]

theorem sound_fresh (next : NodeId) : ({ nextId := next } : Store).Sound :=
  ⟨by simp [Store.ids], by simp [Store.ids], by simp⟩

/-- A document that is accepted. -/
theorem spec_of_toStore {d : Document} (h : d.toStore = .ok s) :
    Registrable [] d.nodes ∧ s = d.nodes.foldl Store.enrolled { nextId := d.nextId } ∧
      s.verify d.root = .ok () := by
  unfold toStore at h
  have hreg := ends_forM_register (s := { nextId := d.nextId }) (by simp [Store.ids]) d.nodes
  split at h
  · cases h
  · next s' hok =>
    obtain ⟨hnodes, hs'⟩ := hreg.of_ok hok
    cases hv : s'.verify d.root with
    | error e =>
      rw [hv] at h
      cases h
    | ok _ =>
      rw [hv] at h
      cases h
      exact ⟨hnodes, hs', hv⟩

/-- A text that is accepted holds a document, and its nodes are those of a consistent store. -/
theorem exists_of_load {text : String} {m : NodeId} (h : load text = .ok (s, m)) :
    s.Sound ∧ s.verify m = .ok () ∧ ∃ d, parse? text = some d ∧ s.nodes = d.nodes := by
  unfold load at h
  split at h
  · cases h
  · next d hd =>
    split at h
    · cases h
    · next s' hs' =>
      cases h
      obtain ⟨hreg, rfl, hv⟩ := spec_of_toStore hs'
      exact ⟨sound_foldl_enrolled (sound_fresh _) hreg, hv, d, hd, by simp [nodes_foldl_enrolled]⟩

/-- A consistent tree that is saved can be loaded, with every node that is reached from the root as it was and no
other, and saving it again gives the same text. -/
theorem load_save {root : NodeId} (hs : s.ids.Nodup) (hlt : ∀ i ∈ s.ids, i < s.nextId)
    (hv : s.verify root = .ok ()) (hty : ∀ n ∈ s.preorder root, ∀ ty ∈ n.ty, ty.toJson.depth ≤ 124) :
    ∃ text s', save s root = .ok text ∧ load text = .ok (s', root) ∧ s'.nextId = s.nextId ∧
      s'.nodes = s.preorder root ∧
      (∀ i n, s'.find? i = some n ↔ (∃ path, s.Reaches root path i) ∧ s.find? i = some n) ∧
      save s' root = .ok text := by
  obtain ⟨t, rfl, hf, hn, ht⟩ := (Store.verify_iff hs root).1 hv
  have hpre : s.preorder t.id = t.nodes none := ht.preorder_eq hf hn
  have ht' : (Store.ofTree t s.nextId).Holds none t := Store.holds_ofTree hn
  rw [hpre] at hty ⊢
  have hsame : ∀ i ∈ t.ids, (Store.ofTree t s.nextId).find? i = s.find? i := by
    intro i hi
    rw [← Tree.map_id_nodes none t] at hi
    obtain ⟨n, hm, rfl⟩ := List.mem_map.1 hi
    rw [ht' n hm, ht n hm]
  refine ⟨_, .ofTree t s.nextId, save_eq ht hf hn, ?_, rfl, rfl, fun i n => ?_, save_eq ht' hf hn⟩
  · rw [load_text hf hn fun i hi => hlt i (ht.mem_ids hi), if_pos hty]
  · rw [← ht.mem_ids_iff hf]
    constructor
    · intro h
      have hi : i ∈ (Store.ofTree t s.nextId).ids := List.mem_map.2 ⟨n, Store.mem_of_find? h, Store.id_of_find? h⟩
      rw [Store.ids_ofTree] at hi
      exact ⟨hi, hsame i hi ▸ h⟩
    · rintro ⟨hi, h⟩
      rw [hsame i hi, h]

/-- A contract with a constant beyond any machine number, a text with a quote and a control character, and a
mapping. -/
def odds : Store :=
  .ofTree
    (.node ⟨7⟩ none .module [] [
      .node ⟨1⟩ (some (.int 256)) (.variableDecl false true false) [.leaf ⟨2⟩ none (.name "low"),
        .leaf ⟨3⟩ none (.int (-1208925819614629174706176))] [] [],
      .node ⟨4⟩ (some (.mapping .address (.dynArray .string 8))) (.variableDecl true false false)
        [.leaf ⟨5⟩ none (.name "größe"), .leaf ⟨6⟩ none (.str "\"\u0007\"")] [] []] [])
    ⟨9⟩

theorem load_save_odds : ∃ text s', save odds ⟨7⟩ = .ok text ∧ load text = .ok (s', ⟨7⟩) ∧
    save s' ⟨7⟩ = .ok text := by
  have hv : odds.verify ⟨7⟩ = .ok () := by decide +kernel
  have hty : ∀ n ∈ odds.preorder ⟨7⟩, ∀ ty ∈ n.ty, ty.toJson.depth ≤ 124 := by decide
  obtain ⟨text, s', hsave, hload, -, -, -, hsave'⟩ := load_save (s := odds) (by decide) (by decide) hv hty
  exact ⟨text, s', hsave, hload, hsave'⟩

end Document

end ContractTree
