import ContractTree.Proofs.Persistence
import Mathlib.Data.Set.Finite.Lattice

/-!
Which documents are accepted. The nodes of a document are registered in order, and the first whose identity is
taken or is the last one decides; if there is none, the document is accepted exactly if the nodes that its root
leads to form a tree with links that agree (`Document.admission`).

The check of the tree works on untrusted links. It is a loop over a stack that keeps what it has seen, and every
turn that goes on sees a registered node for the first time, so that it ends on every store
(`Store.loopEnds_verify`).
-/

namespace ContractTree

namespace Store

/-- A state of the check: before its first turn, or with what it has seen and what waits to be visited. -/
inductive Checking where
  | start (root : NodeId)
  | visiting (seen stack : List NodeId)

/-- A turn of the check looks at the root, or visits the node on top of the stack and puts its children there. -/
def checkTurn (s : Store) : Checking → Except StructuralError Unit ⊕ Checking
  | .start root =>
    match s.find? root with
    | none => .inl (.error (.unknownNode root))
    | some n =>
      match n.parent with
      | some p => .inl (.error (.inconsistent root (.rootHasParent p)))
      | none => .inr (.visiting [] [root])
  | .visiting _ [] => .inl (.ok ())
  | .visiting seen (i :: stack) =>
    if i ∈ seen then .inl (.error (.inconsistent i .reachedTwice))
    else
      match s.find? i with
      | none => .inl (.error (.unknownNode i))
      | some n =>
        match s.checkChildren i n.children with
        | .error e => .inl (.error e)
        | .ok () => .inr (.visiting (i :: seen) (n.children.reverse ++ stack))

variable {s : Store} {i root : NodeId}

/-- What waits is registered, and what is registered was seen or is unvisited: there are as many turns left as
unvisited nodes, and one to end. -/
theorem loopEnds_checkFrom {unvisited seen stack : List NodeId} (hu : unvisited.Nodup)
    (hseen : ∀ i, i ∈ unvisited ↔ i ∈ s.ids ∧ i ∉ seen) (hstack : ∀ i ∈ stack, i ∈ s.ids) :
    LoopEnds s.checkTurn (unvisited.length + 1) (.visiting seen stack) (s.checkFrom unvisited stack) := by
  fun_induction Store.checkFrom s unvisited stack generalizing seen with
  | case1 unvisited => exact .stop rfl
  | case2 unvisited i stack hi e he =>
    obtain ⟨hid, hnew⟩ := (hseen i).1 hi
    obtain ⟨n, hn⟩ := Option.isSome_iff_exists.1 (contains_iff.2 hid)
    rw [children, hn] at he
    refine .stop ?_
    simp only [checkTurn, if_neg hnew, hn]
    rw [show s.checkChildren i n.children = .error e from he]
  | case3 unvisited i stack hi he ih =>
    obtain ⟨hid, hnew⟩ := (hseen i).1 hi
    obtain ⟨n, hn⟩ := Option.isSome_iff_exists.1 (contains_iff.2 hid)
    have hchildren : s.children i = n.children := by rw [children, hn]; rfl
    rw [hchildren] at he ih ⊢
    have hlen : unvisited.length + 1 = (unvisited.erase i).length + 1 + 1 := by
      have := List.length_pos_of_mem hi
      rw [List.length_erase_of_mem hi]
      omega
    rw [hlen]
    have hturn : s.checkTurn (.visiting seen (i :: stack)) =
        .inr (.visiting (i :: seen) (n.children.reverse ++ stack)) := by
      simp only [checkTurn, if_neg hnew, hn, he]
    refine .next hturn (ih (hu.erase i) ?_ ?_)
    · intro j
      rw [hu.mem_erase_iff, hseen, List.mem_cons]
      tauto
    · intro j hj
      rcases List.mem_append.1 hj with hj | hj
      · obtain ⟨m, hm, -⟩ := (checkChildren_eq_ok_iff i n.children).1 he j (List.mem_reverse.1 hj)
        exact contains_iff.1 (by rw [contains, hm]; rfl)
      · exact hstack j (List.mem_cons_of_mem _ hj)
  | case4 unvisited i stack hi =>
    have hmem : i ∈ seen := by
      by_contra hnew
      exact hi ((hseen i).2 ⟨hstack i List.mem_cons_self, hnew⟩)
    exact .stop (by simp only [checkTurn, if_pos hmem])

/-- The check ends on every store, however its links go. -/
theorem loopEnds_verify (hs : s.ids.Nodup) (root : NodeId) :
    LoopEnds s.checkTurn (s.size + 2) (.start root) (s.verify root) := by
  unfold verify node
  cases hn : s.find? root with
  | none => exact .stop (by simp only [checkTurn, hn]; rfl)
  | some n =>
    cases hp : n.parent with
    | some p =>
      refine .stop ?_
      simp only [checkTurn, hn, hp]
      show _ = Sum.inl (match n.parent with | some p => _ | none => _)
      rw [hp]
    | none =>
      have hroot : root ∈ s.ids := contains_iff.1 (by rw [contains, hn]; rfl)
      have hlen : s.ids.length = s.size := List.length_map _
      have hfrom : LoopEnds s.checkTurn (s.ids.length + 1) (.visiting [] [root]) (s.checkFrom s.ids [root]) :=
        loopEnds_checkFrom hs (by simp) (by simpa using hroot)
      have hturn : s.checkTurn (.start root) = .inr (.visiting [] [root]) := by simp only [checkTurn, hn, hp]
      rw [hlen] at hfrom
      refine .next hturn ?_
      show LoopEnds _ _ _ (match n.parent with | some p => _ | none => _)
      rw [hp]
      exact hfrom

theorem verify_eq_ok_iff (hs : s.ids.Nodup) : s.verify root = .ok () ↔ s.parent? root = none ∧ s.Linked root := by
  rw [verify_iff hs, linked_iff]
  constructor
  · rintro ⟨t, rfl, hf, hn, ht⟩
    rw [ht.parent?]
    exact ⟨rfl, t, rfl, hf, hn, ht⟩
  · rintro ⟨hp, t, rfl, hf, hn, ht⟩
    rw [hp] at ht
    exact ⟨t, rfl, hf, hn, ht⟩

theorem Linked.of_find? {s' : Store} (h : s.Linked root) (hfind : ∀ i, s'.find? i = s.find? i) :
    s'.Linked root := by
  obtain ⟨t, rfl, hf, hn, ht⟩ := linked_iff.1 h
  refine linked_iff.2 ⟨t, rfl, hf, hn, ?_⟩
  rw [parent?, hfind]
  exact ht.congr fun i _ => hfind i

/-- There are finitely many paths from a well-linked node. -/
theorem Linked.finite_paths {top : NodeId} (h : s.Linked top) : {path | ∃ i, s.Reaches top path i}.Finite := by
  refine ((List.finite_toSet s.ids).biUnion (t := fun i => {path | s.Reaches top path i}) fun i _ => ?_).subset ?_
  · exact Set.Subsingleton.finite fun p hp q hq => h.once p q i hp hq
  · rintro path ⟨i, hi⟩
    exact Set.mem_biUnion (h.registered path i hi) hi

end Store

namespace Document

variable {d : Document} {before after : List Node} {n : Node}

/-- The nodes of a document as they stand in it. -/
def listed (d : Document) : Store := { nextId := d.nextId, nodes := d.nodes }

theorem register_of_mem {s : Store} (h : n.id ∈ s.ids) : Edit.register n s = .error (.duplicateId n.id) s := by
  have hends := Edit.ends_register (s := s) n
  cases hr : Edit.register n s with
  | ok i s' => exact absurd h (hends.of_ok hr).2.1
  | error e s' =>
    obtain ⟨rfl, ⟨-, rfl⟩ | ⟨hn, -⟩⟩ := hends.of_error hr
    · rfl
    · exact absurd h hn

theorem register_of_last {s : Store} (h : n.id ∉ s.ids) (hlast : n.id = .last) :
    Edit.register n s = .error .idsExhausted s := by
  have hends := Edit.ends_register (s := s) n
  cases hr : Edit.register n s with
  | ok i s' => exact absurd hlast (hends.of_ok hr).2.2.1
  | error e s' =>
    obtain ⟨rfl, ⟨hn, -⟩ | ⟨-, -, rfl⟩⟩ := hends.of_error hr
    · exact absurd hn h
    · rfl

theorem replacements_foldl_enrolled (nodes : List Node) (s : Store) :
    (nodes.foldl Store.enrolled s).replacements = s.replacements := by
  induction nodes generalizing s with
  | nil => rfl
  | cons n nodes ih => exact ih _

/-- The first node that cannot be registered decides. -/
theorem toStore_of_refused {e : StructuralError} (hd : d.nodes = before ++ n :: after)
    (hbefore : Registrable [] before) (hn : ∀ s : Store, s.ids = before.map Node.id →
      Edit.register n s = .error e s) : d.toStore = .error e := by
  have hreg := forM_register (s := { nextId := d.nextId }) (by simp [Store.ids]) hbefore
  have hids : (before.foldl Store.enrolled { nextId := d.nextId }).ids = before.map Node.id := by
    rw [Store.ids, nodes_foldl_enrolled, List.nil_append]
  have hrefused : (d.nodes.forM fun n => do let _ ← Edit.register n : Edit Unit) { nextId := d.nextId } =
      .error e (before.foldl Store.enrolled { nextId := d.nextId }) := by
    rw [List.forM_eq_forM] at hreg ⊢
    rw [hd, List.forM_append, bind_of_ok hreg, List.forM_cons]
    exact bind_of_error (bind_of_error (hn _ hids))
  rw [toStore, hrefused]

theorem toNat_nextId_foldl_enrolled {nodes : List Node} (h : ∀ n ∈ nodes, n.id ≠ .last) (s : Store) :
    (nodes.foldl Store.enrolled s).nextId.toNat = (nodes.map
      fun n => n.id.toNat + 1).foldl max s.nextId.toNat := by
  induction nodes generalizing s with
  | nil => rfl
  | cons n nodes ih =>
    rw [List.forall_mem_cons] at h
    rw [List.foldl_cons, ih h.2, Store.toNat_nextId_enrolled h.1, List.map_cons, List.foldl_cons]

/-- A document whose nodes can be registered is accepted exactly if they form a tree with links that agree. -/
theorem toStore_ok_iff (h : Registrable [] d.nodes) :
    (∃ s, d.toStore = .ok s) ↔ d.listed.parent? d.root = none ∧ d.listed.Linked d.root := by
  have hfind (i : NodeId) : (d.nodes.foldl Store.enrolled { nextId := d.nextId }).find? i = d.listed.find? i := by
    rw [Store.find?, nodes_foldl_enrolled, List.nil_append]
    rfl
  have hs : (d.nodes.foldl Store.enrolled { nextId := d.nextId }).ids.Nodup :=
    (sound_foldl_enrolled (sound_fresh d.nextId) h).nodup
  rw [toStore_of_registrable h, Store.parent?, ← hfind, ← Store.parent?]
  generalize d.nodes.foldl Store.enrolled { nextId := d.nextId } = s at hfind hs ⊢
  have hlinked : d.listed.Linked d.root ↔ s.Linked d.root :=
    ⟨fun hl => hl.of_find? hfind, fun hl => hl.of_find? fun i => (hfind i).symm⟩
  rw [hlinked, ← Store.verify_eq_ok_iff hs]
  cases s.verify d.root with
  | error e => simp [bind, Except.bind]
  | ok u => exact ⟨fun _ => rfl, fun _ => ⟨s, rfl⟩⟩

/-- **Loading accepts exactly the consistent documents.** The first node whose identity stands before it, or is the
last one, decides. If there is none, the document is accepted exactly if its root is there and has no parent, and
leads by finitely many paths to registered nodes, none of them by two, whose children name them as their parents.
The store has then the nodes of the document in their order, and a counter that is not below the document's and is
above their identities. The check ends on every store. -/
theorem admission (d : Document) :
    (∀ before n after, d.nodes = before ++ n :: after → (before.map Node.id).Nodup → (∀ m ∈ before, m.id ≠ .last) →
      (n.id ∈ before.map Node.id → d.toStore = .error (.duplicateId n.id)) ∧
      (n.id = .last → d.toStore = .error .idsExhausted)) ∧
    ((d.nodes.map Node.id).Nodup → (∀ n ∈ d.nodes, n.id ≠ .last) →
      ((∃ s, d.toStore = .ok s) ↔
        d.root ∈ d.listed.ids ∧ d.listed.parent? d.root = none ∧
        {path | ∃ i, d.listed.Reaches d.root path i}.Finite ∧ d.listed.Linked d.root)) ∧
    (∀ s, d.toStore = .ok s → s.nodes = d.nodes ∧ s.replacements = [] ∧
      s.nextId.toNat = (d.nodes.map fun n => n.id.toNat + 1).foldl max d.nextId.toNat) ∧
    ∀ s : Store, s.ids.Nodup → ∀ root, LoopEnds s.checkTurn (s.size + 2) (.start root) (s.verify root) := by
  refine ⟨fun before n after hd hnd hcounted => ⟨fun hn => ?_, fun hn => ?_⟩, fun hnd hcounted => ?_,
    fun s h => ?_, fun s hs root => Store.loopEnds_verify hs root⟩
  · refine toStore_of_refused hd ⟨hnd, hcounted⟩ fun s hids => ?_
    exact register_of_mem (hids ▸ hn)
  · refine toStore_of_refused hd ⟨hnd, hcounted⟩ fun s hids => ?_
    refine register_of_last (fun hmem => ?_) hn
    obtain ⟨m, hm, hid⟩ := List.mem_map.1 (hids ▸ hmem)
    exact hcounted m hm (hid.trans hn)
  · rw [toStore_ok_iff ⟨hnd, hcounted⟩]
    constructor
    · rintro ⟨hp, hl⟩
      exact ⟨hl.registered [] d.root (.here d.root), hp, hl.finite_paths, hl⟩
    · rintro ⟨-, hp, -, hl⟩
      exact ⟨hp, hl⟩
  · obtain ⟨hreg, rfl, -⟩ := spec_of_toStore h
    refine ⟨by rw [nodes_foldl_enrolled, List.nil_append], replacements_foldl_enrolled _ _, ?_⟩
    exact toNat_nextId_foldl_enrolled hreg.counted _

/-- A public variable in a document that numbers its nodes out of order and does not say where to go on. -/
def unnumbered : Document where
  root := ⟨7⟩
  nodes := [
    { id := ⟨7⟩, kind := .module [⟨3⟩] },
    { id := ⟨3⟩, parent := some ⟨7⟩, ty := some (.uint 256), kind := .variableDecl ⟨5⟩ none true false false },
    { id := ⟨5⟩, parent := some ⟨3⟩, kind := .name "x" }]

theorem toStore_unnumbered : unnumbered.toStore = .ok { nextId := ⟨8⟩, nodes := unnumbered.nodes } := by
  have hstore : unnumbered.nodes.foldl Store.enrolled { nextId := unnumbered.nextId } =
      { nextId := ⟨8⟩, nodes := unnumbered.nodes } := rfl
  have hv : ({ nextId := ⟨8⟩, nodes := unnumbered.nodes } : Store).verify unnumbered.root = .ok () := by
    decide +kernel
  rw [toStore_of_registrable ⟨by decide, by decide⟩, hstore, hv]
  rfl

theorem admission_unnumbered : ∃ s, unnumbered.toStore = .ok s ∧ s.nodes = unnumbered.nodes ∧
    s.nextId.toNat = 8 := by
  obtain ⟨hnodes, -, hnext⟩ := (admission unnumbered).2.2.1 _ toStore_unnumbered
  exact ⟨_, toStore_unnumbered, hnodes, hnext⟩

end Document

end ContractTree
