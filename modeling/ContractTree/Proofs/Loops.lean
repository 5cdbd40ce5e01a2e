import ContractTree.Proofs.Ancestry
import ContractTree.Proofs.Consistency

/-!
The loops of the pass that only look at the store. One searches for an access below a node, with a stack of the
nodes that it has still to look at; one takes the subscripts off a chain; two go up along the links to parents.
While the pass works, trees hang loose and single nodes lie beside them, and at no time do these loops run for
ever: on the way of a run, they end in every store (`Lowering.run_loopsEnd`).

The loop without bounds does what the pass does (`Unbounded.passes_run`). In the stores that it comes to, the loops
that look at the store end from all the nodes that its next job asks about (`Unbounded.Attended`).
-/

namespace ContractTree

open Lowering (Progress Stands visitor)
open Lower (edit)

namespace Store

variable {s : Store} {c : Catalog} {g : Guard c} {p : Option NodeId} {t : Tree} {ts : List Tree} {i m : NodeId}
  {F : Forest} {H : List Node} {G : Outside}

/-! ## Loops that go down -/

/-- The search for the first access, one node at a time; the stack has the nodes that are still to be searched, the
next one first. -/
def searchTurn (s : Store) (c : Catalog) : List NodeId → Except LoweringError (Option Access) ⊕ List NodeId
  | [] => .inl (.ok none)
  | id :: stack =>
    match s.accessAt c id with
    | .ok none => .inr (s.children id ++ stack)
    | found => .inl found

/-- The subscripts of a chain, outermost first, and what they are around, one subscript at a time. -/
def unwindTurn (s : Store) : List NodeId × NodeId → (List NodeId × NodeId) ⊕ (List NodeId × NodeId)
  | (seen, id) =>
    match s.subscripted? id with
    | some value => .inr (seen ++ [id], value)
    | none => .inl (seen, id)

theorem firstSome_append {α : Type} (f : NodeId → Except LoweringError (Option α)) (l l' : List NodeId) :
    (firstSome f l = .ok none ∧ firstSome f (l ++ l') = firstSome f l') ∨
      (firstSome f l ≠ .ok none ∧ firstSome f (l ++ l') = firstSome f l) := by
  induction l with
  | nil => exact .inl ⟨rfl, rfl⟩
  | cons id l ih =>
    rw [List.cons_append, firstSome, firstSome]
    rcases f id with e | _ | a
    · exact .inr ⟨by simp, rfl⟩
    · exact ih
    · exact .inr ⟨by simp, rfl⟩

/-- To ask each tree for its first answer is to ask all their nodes. -/
theorem firstSome_flatMap {α : Type} {f h : NodeId → Except LoweringError (Option α)}
    (hts : ∀ t ∈ ts, f t.id = firstSome h t.ids) :
    firstSome f (ts.map Tree.id) = firstSome h (ts.flatMap Tree.ids) := by
  induction ts with
  | nil => rfl
  | cons t ts ih =>
    rw [List.map_cons, firstSome, List.flatMap_cons, hts t List.mem_cons_self,
      ih fun u hu => hts u (List.mem_cons_of_mem _ hu)]
    rcases firstSome_append h t.ids (ts.flatMap Tree.ids) with ⟨hnone, hrest⟩ | ⟨hsome, hrest⟩
    · rw [hnone, hrest]
    · rw [hrest]
      rcases hfirst : firstSome h t.ids with e | _ | a
      · rfl
      · exact absurd hfirst hsome
      · rfl

/-- The first access below a node is the first that the nodes of its tree give, in order. -/
theorem Holds.firstAccessWithin {fuel : Nat} (h : s.Holds p t) (hf : t.Fits) (hfuel : t.ids.length ≤ fuel) :
    s.firstAccessWithin c fuel t.id = firstSome (s.accessAt c) t.ids := by
  induction t generalizing p fuel with
  | step t ih =>
    have hkids : ∀ k ∈ t.kids, k.ids.length < fuel := fun k hk => (length_ids_kid_lt hk).trans_le hfuel
    have hlength : t.ids.length = _ := congrArg List.length t.ids_eq
    rw [List.length_cons] at hlength
    obtain ⟨fuel, rfl⟩ : ∃ n, fuel = n + 1 := ⟨fuel - 1, by omega⟩
    rw [Store.firstAccessWithin, t.ids_eq, firstSome, h.children hf]
    rcases s.accessAt c t.id with e | _ | a
    · rfl
    · exact firstSome_flatMap fun k hk => ih k hk (h.kid hk) (hf.kid hk) (Nat.le_of_lt_succ (hkids k hk))
    · rfl

/-- The search takes one turn for each node of the trees on the stack, and one to see that there are no more. -/
theorem loopEnds_search (hts : ∀ t ∈ ts, t.Fits ∧ ∃ p, s.Holds p t) {n : Nat}
    (hn : (ts.flatMap Tree.ids).length ≤ n) :
    LoopEnds (s.searchTurn c) (n + 1) (ts.map Tree.id) (firstSome (s.accessAt c) (ts.flatMap Tree.ids)) := by
  induction n generalizing ts with
  | zero =>
    cases ts with
    | nil => exact .stop rfl
    | cons t ts =>
      have := List.length_pos_of_mem t.id_mem_ids
      simp only [List.flatMap_cons, List.length_append] at hn
      omega
  | succ n ih =>
    cases ts with
    | nil => exact .stop rfl
    | cons t ts =>
      obtain ⟨hf, p, h⟩ := hts t List.mem_cons_self
      rw [List.flatMap_cons, t.ids_eq, List.cons_append, List.length_cons] at hn
      rw [List.flatMap_cons, t.ids_eq, List.cons_append, firstSome, List.map_cons]
      rcases haccess : s.accessAt c t.id with e | _ | a
      · exact .stop (by rw [searchTurn, haccess])
      · -- the children take the place of their parent on the stack
        have hall : ∀ u ∈ t.kids ++ ts, u.Fits ∧ ∃ p, s.Holds p u := List.forall_mem_append.2
          ⟨fun k hk => ⟨hf.kid hk, _, h.kid hk⟩, fun u hu => hts u (List.mem_cons_of_mem _ hu)⟩
        have hrest := ih hall (by rw [List.flatMap_append]; omega)
        rw [List.map_append, List.flatMap_append] at hrest
        exact .next (by rw [searchTurn, haccess, h.children hf]) hrest
      · exact .stop (by rw [searchTurn, haccess])

theorem Holds.loopEnds_unwind (h : s.Holds p t) (hf : t.Fits) {n : Nat} (hn : t.links.length ≤ n)
    (seen : List NodeId) :
    LoopEnds s.unwindTurn (n + 1) (seen, t.id) (seen ++ s.chainWithin n t.id, s.innermostWithin n t.id) := by
  induction n generalizing t p seen with
  | zero =>
    rcases hf.subscript_cases with ⟨i, ty, v, k, rfl⟩ | hl
    · simp [Tree.links] at hn
    · exact .stop (by rw [unwindTurn, h.subscripted?_of_label hf hl]; simp [Store.chainWithin,
        Store.innermostWithin])
  | succ n ih =>
    rcases hf.subscript_cases with ⟨i, ty, v, k, rfl⟩ | hl
    · rw [Tree.links, List.length_append, List.length_singleton] at hn
      have hsub := h.subscripted?_subscript
      have hrest := ih (h.kid (k := v) (by simp)) (hf.kid (by simp)) (by omega) (seen ++ [i])
      rw [List.append_assoc, List.singleton_append] at hrest
      rw [Tree.id_node, Store.chainWithin, Store.innermostWithin, hsub]
      exact .next (by rw [unwindTurn, hsub]) hrest
    · have hsub := h.subscripted?_of_label hf hl
      exact .stop (by rw [unwindTurn, Store.chainWithin, Store.innermostWithin, hsub]; simp)

/-! ## Loops that go up -/

theorem Sunk.climbs (h : Sunk H i) (hH : ∀ n ∈ H, s.find? n.id = some n) : s.Climbs i := by
  induction h with
  | top hn hp _ => exact .of_top (by rw [parent?, hH _ hn, Option.bind_some, hp])
  | under hn hp _ ih => exact .of_up (by rw [Up, parent?, hH _ hn, Option.bind_some, hp]) ih

theorem Holds.climbs (h : s.Holds p t) (hp : ∀ q, p = some q → s.Climbs q) (hi : i ∈ t.ids) : s.Climbs i := by
  induction t generalizing p with
  | step t ih =>
    have htop : s.Climbs t.id := by
      cases p with
      | none => exact .of_top h.parent?
      | some q => exact .of_up h.parent? (hp q rfl)
    rw [t.ids_eq, List.mem_cons, List.mem_flatMap] at hi
    rcases hi with rfl | ⟨k, hk, hi⟩
    · exact htop
    · refine ih k hk (h.kid hk) (fun q hq => ?_) hi
      obtain rfl := Option.some.inj hq
      exact htop

/-- No way up from a node of the forest, or from a single node beside it, is a circle. -/
theorem Bears.climbs (h : s.Bears g F H G) (hi : i ∉ G.ids) : s.Climbs i := by
  by_cases hmem : i ∈ s.ids
  · rcases (h.rest i hmem).resolve_right hi |> List.mem_append.1 with hF | hH
    · obtain ⟨x, hx, hix⟩ := List.mem_flatMap.1 hF
      exact (h.holds x hx).climbs (fun q hq => (h.adrift x hx q hq).climbs h.husks) hix
    · obtain ⟨n, hn, rfl⟩ := List.mem_map.1 hH
      exact (h.sunk n hn).climbs h.husks
  · exact .of_top (by rw [parent?, find?_eq_none_iff.2 hmem, Option.bind_none])

/-! ## Loops on the way -/

/-- The loops that look at the store end, with what the pass takes for their result: those that go down from the
nodes below `m`, and those that go up from the nodes that are free. -/
structure LoopsEnd (s : Store) (m : NodeId) (free : NodeId → Prop) : Prop where
  search : ∀ c path i, s.Reaches m path i → LoopEnds (s.searchTurn c) (s.size + 1) [i] (s.firstAccess c i)
  unwind : ∀ path i, s.Reaches m path i → LoopEnds s.unwindTurn (s.size + 1) ([], i) (s.chain i, s.innermost i)
  attached : ∀ i, free i → LoopEnds s.attachedTurn (s.size + 1) i (s.isAttached i)
  enclosing : ∀ i, free i → LoopEnds s.enclosingTurn (s.size + 1) i (s.enclosingStatement? i)

theorem Tends.loopsEnd {free : NodeId → Prop} (h : s.Tends g m G) (hG : ∀ i ∈ G.ids, ¬ free i) :
    s.LoopsEnd m free := by
  obtain ⟨T, F, H, hb, rfl⟩ := h
  have hf := hb.fits _ List.mem_cons_self
  have hn := hb.tree_nodup (p := none) List.mem_cons_self
  have hT := hb.holds _ List.mem_cons_self
  have hbelow : ∀ {path i}, s.Reaches T.id path i → ∃ u p, u.id = i ∧ u.Fits ∧ s.Holds p u ∧
      u.ids.length ≤ s.size := by
    intro path i hr
    obtain ⟨C, u, rfl, rfl⟩ := Tree.exists_place ((hT.mem_ids_iff hf).2 ⟨path, hr⟩)
    have hin := Holds.inside hT
    exact ⟨u, _, rfl, Ctx.fits_of_plug hf, hin, hin.length_le ((Ctx.nodup_plug C u).1 hn).2.1⟩
  have hclimbs : ∀ i, free i → s.Climbs i := fun i hi => hb.climbs fun hiG => hG i hiG hi
  refine ⟨fun c path i hr => ?_, fun path i hr => ?_, fun i hi => (hclimbs i hi).loops.1,
    fun i hi => (hclimbs i hi).loops.2.1⟩
  · obtain ⟨u, p, rfl, hfu, hu, hle⟩ := hbelow hr
    have hloop := loopEnds_search (c := c) (n := s.size) (List.forall_mem_singleton.2 ⟨hfu, p, hu⟩)
      (by simpa using hle)
    rw [firstAccess, hu.firstAccessWithin hfu (by omega)]
    simpa using hloop
  · obtain ⟨u, p, rfl, hfu, hu, hle⟩ := hbelow hr
    exact hu.loopEnds_unwind hfu (u.length_links_lt.le.trans hle) []

end Store

namespace Lowering

variable {w : Workspace Progress} {G : Outside} {T : Tree} {m : NodeId} {s : Store}

/-- Every visit goes on with the way. -/
theorem kept_way : Kept G m (fun w => Way (Store.Tends (Guard.idle []) m G) s w.store)
    fun w => Way (Store.Tends (Guard.idle []) m G) s w.store := by
  intro w T i hst hi hw
  obtain ⟨c, st, h⟩ := hst.has
  obtain ⟨K, t, rfl, rfl⟩ := Tree.exists_place hi
  obtain rfl := hst.id
  have hcourse := dispatch_course (g := Guard.idle c) h h.keeps.tends_idle rfl
  have hgo : ∀ {s'}, Way (Store.Tends (Guard.idle c) _ G) w.store s' →
      Way (Store.Tends (Guard.idle []) _ G) s s' :=
    fun hway => hw.trans (hway.mono fun _ h => h.idle)
  exact hcourse.ends_way.mono (fun _ _ h => hgo h.2) fun _ _ h => hgo h.2

/-- **No loop that looks at the store runs for ever** at any time of a run. -/
theorem run_loopsEnd (hs : w.store.Sound) (hv : w.store.verify m = .ok ()) :
    Way (Store.LoopsEnd · m fun i => i ∈ w.store.ids → ∃ path, w.store.Reaches m path i) w.store
      (final (run m) w).store := by
  obtain ⟨T, rfl, hf, hn, hT⟩ := (Store.verify_iff hs.nodup m).1 hv
  have h := has_of_holds (w := w) hs hf hn hT
  have hstart : Way (Store.Tends (Guard.idle []) T.id (w.store.outside T)) w.store w.store :=
    .refl h.keeps.tends_idle
  have hway := run_stands_below (w := w) (fun hl => kept_way ⟨rfl, hl, _, _, has_of_holds hs hf hn hT⟩
    T.id_mem_ids hstart) kept_way.below (fun _ h => h) hs hf hn hT hstart
  have hfinal : Way (Store.Tends (Guard.idle []) T.id (w.store.outside T)) w.store (final (run T.id) w).store := by
    unfold final
    cases hrun : run T.id w with
    | ok _ w' => exact (hway.of_ok hrun).2
    | error e w' => exact (hway.of_error hrun).2
  refine hfinal.mono fun s hs => hs.loopsEnd fun i hi hfree => ?_
  obtain ⟨hmem, hnot⟩ := List.mem_filter.1 hi
  exact absurd ((hT.mem_ids_iff hf).2 (hfree hmem)) (by simpa using hnot)

end Lowering

/-! ## The loop without bounds -/

namespace Lowering.Stands

variable {w : Workspace Progress} {G : Outside} {T : Tree} {m i : NodeId}

theorem tends (h : Stands G m w T) : w.store.Tends (Guard.idle []) m G := by
  obtain ⟨c, st, hc⟩ := h.has
  exact h.id ▸ hc.keeps.tends_idle

theorem reaches (h : Stands G m w T) (hi : i ∈ T.ids) : ∃ path, w.store.Reaches m path i := by
  obtain ⟨c, st, hc⟩ := h.has
  exact Has.reaches (C := []) hc h.id hi

/-- After a walk that starts at one of its nodes, the module stands. -/
theorem after_walk {fuel : Nat} {r : Option NodeId} {w' : Workspace Progress} (h : Stands G m w T) (hi : i ∈ T.ids)
    (hw' : visitor.walkNode m fuel i w = .ok r w') : ∃ T', Stands G m w' T' :=
  (((walk_stands kept_true.below (fun _ h => h) fuel).1 h trivial hi (kept_true h hi trivial)).of_ok hw').1

end Lowering.Stands

namespace Unbounded

variable {α β : Type} {m : NodeId} {G : Outside} {T : Tree} {job : Job} {ks : List Job} {found : Option NodeId}
  {w : Workspace Progress} {x x' : Lower α} {f : α → Lower β} {y y' : Lower (List Job)} {give : α → Option NodeId}
  {give' : β → Option NodeId}

/-- In the store of this turn, the loops that look at the store end from every node below the module and from every
free node, what is below the module is free, and the next job asks about such nodes. -/
structure Attended (m : NodeId) (free : NodeId → Prop) (s : State) : Prop where
  loops : s.workspace.store.LoopsEnd m free
  below : ∀ path i, s.workspace.store.Reaches m path i → free i
  next : ∀ job ∈ s.todo.head?, job.Posed s.workspace.store m free

theorem Tended.attended {free : NodeId → Prop} {s : State} (h : Tended m G s) (hfree : ∀ i, free i ↔ i ∉ G.ids) :
    Attended m free s := by
  obtain rfl : free = (· ∉ G.ids) := funext fun i => propext (hfree i)
  refine ⟨h.store.loopsEnd fun i hi hn => hn hi, fun path i hr hi => ?_, h.next⟩
  obtain ⟨U, F, H, hb, rfl⟩ := h.store
  have hU : i ∈ U.ids := ((hb.holds _ List.mem_cons_self).mem_ids_iff (hb.fits _ List.mem_cons_self)).2 ⟨path, hr⟩
  exact (hb.apart i hi).2 (by simp [hU])

/-- The work fails because a loop meets its bound. -/
def Meets (x : Lower α) (w : Workspace Progress) : Prop := ∃ e w', x w = .error e w' ∧ Endless e

theorem Meets.bind (h : Meets x w) : Meets (x >>= f) w := by
  obtain ⟨e, w', hx, he⟩ := h
  exact ⟨e, w', bind_of_error hx, he⟩

theorem Meets.of_bind {a : α} {w' : Workspace Progress} (hx : x w = .ok a w') (h : Meets (f a) w') :
    Meets (x >>= f) w := by
  obtain ⟨e, w'', hf, he⟩ := h
  exact ⟨e, w'', by rw [bind_of_ok hx, hf], he⟩

theorem store_bind {f : Store → Lower α} : (Work.store >>= f) w = f w.store w := rfl

/-- The jobs that `y` leaves do the work `x`, unless a loop of `x` meets its bound. -/
def Tries (m : NodeId) (G : Outside) (y : Lower (List Job)) (found : Option NodeId) (x : Lower α)
    (give : α → Option NodeId) (w : Workspace Progress) : Prop := Meets x w ∨ Pushes m G y found x give w

theorem Tries.congr (h : Tries m G y' found x' give w) (hy : y w = y' w) (hx : x w = x' w) :
    Tries m G y found x give w := by
  unfold Tries Meets Pushes at h ⊢
  rwa [hy, hx]

/-- A job does what it does at once, and what it leaves to do. -/
theorem Tries.turn (h : Tries m G (work m found job) (job.found found) x give w)
    (hI : w.store.Tends (Guard.idle []) m G) (hposed : job.Posed w.store m (· ∉ G.ids)) :
    Tries m G (pure [job]) found x give w :=
  h.imp_right fun h rest out hgo => (h rest out hgo).turn hI hposed

theorem tries_give (r : Option NodeId) (hI : w.store.Tends (Guard.idle []) m G) :
    Tries m G (pure [.give r]) found (pure r) id w :=
  Tries.turn (.inr fun _ _ h => h) hI trivial

/-- The jobs that `y` leaves to do, and then others. -/
theorem Tries.append (h : Tries m G y found x give w)
    (hf : ∀ a w', x w = .ok a w' → Tries m G (pure ks) (give a) (f a) give' w') :
    Tries m G (y >>= fun js => pure (js ++ ks)) found (x >>= f) give' w := by
  rcases h with hmeets | h
  · exact .inl hmeets.bind
  by_cases hall : ∀ a w', x w = .ok a w' → Pushes m G (pure ks) (give a) (f a) give' w'
  · exact .inr (h.append hall)
  · push Not at hall
    obtain ⟨a, w', hx, hnot⟩ := hall
    exact .inl (((hf a w' hx).resolve_right hnot).of_bind hx)

/-- Visits to a node and to what replaces it, with what `go` does below the node that stays. -/
theorem tries_settle {go : Option NodeId → Lower (Option NodeId)}
    (hgo : ∀ {w T} current found, Stands G m w T → current ∈ T.ids →
      Tries m G (pure [.children current 0]) found (go (some current)) id w)
    (fuel : Nat) {i : NodeId} (h : Stands G m w T) (hi : i ∈ T.ids) :
    Tries m G (pure [.visit i]) found (visitor.settle m fuel i >>= go) id w := by
  induction fuel generalizing i w T with
  | zero => exact .inl ⟨_, _, rfl, _, rfl⟩
  | succ fuel ih =>
    have hvisit : Tries m G (edit (Edit.node i) >>= fun n => visit n.tag i m) found (visitor.dispatch i m)
        (fun _ => found) w := by
      obtain ⟨c, st, hc⟩ := h.has
      obtain ⟨K, t, rfl, rfl⟩ := Tree.exists_place hi
      obtain rfl := h.id
      exact .inr ((Lowering.dispatch_track (g := Guard.idle c) hc hc.keeps.tends_idle rfl).turns found)
    rw [Visitor.settle, bind_assoc]
    refine Tries.turn (.congr (hvisit.append fun _ w' hw' => ?_) (by rw [work, bind_assoc]) rfl) h.tends
      (h.reaches hi)
    obtain ⟨⟨T', h', hin⟩, -⟩ := (Lowering.dispatch_stands (Lowering.kept_true h hi trivial) h hi).of_ok hw'
    have hfree := h.notMem hi
    by_cases ha : w'.store.isAttached i = true
    · have hin' := h'.mem_of_isAttached hfree ha
      obtain ⟨path, hpath⟩ := h'.reaches hin'
      refine Tries.turn (.congr (hgo i found h' hin') ?_ ?_) h'.tends ⟨hfree, path, i, hpath, .inl rfl⟩
      · rw [work, store_bind, if_pos ha]
      · rw [bind_assoc, store_bind, if_pos ha]
        rfl
    · obtain ⟨j, hj, -, hrep⟩ := hin.resolve_left fun hin => ha (h'.isAttached hin)
      obtain ⟨path, hpath⟩ := h'.reaches hj
      refine Tries.turn (.congr (ih h' hj) ?_ ?_) h'.tends ⟨hfree, path, j, hpath, .inr hrep⟩
      · rw [work, store_bind, if_neg ha, hrep]
        simp only [h'.isAttached hj, if_true]
      · rw [bind_assoc, store_bind, if_neg ha, hrep]
        simp only [h'.isAttached hj, if_true]

theorem tries_walk (fuel : Nat) :
    (∀ {w T i} found, Stands G m w T → i ∈ T.ids →
      Tries m G (pure [.visit i]) found (visitor.walkNode m fuel i) id w) ∧
      ∀ {w T i} index found, Stands G m w T → i ∈ T.ids →
        Tries m G (pure [.children i index]) found (visitor.walkChildren m fuel i index) id w := by
  induction fuel with
  | zero => exact ⟨fun _ _ _ => .inl ⟨_, _, rfl, _, rfl⟩, fun _ _ _ _ => .inl ⟨_, _, rfl, _, rfl⟩⟩
  | succ fuel ih =>
    refine ⟨fun {w T i} found h hi => ?_, fun {w T i} index found h hi => ?_⟩
    · rw [Visitor.walkNode]
      exact tries_settle (fun current found h hi => ih.2 0 found h hi) fuel h hi
    · rw [Visitor.walkChildren]
      refine Tries.turn ?_ h.tends (h.reaches hi)
      cases hchild : (w.store.children i)[index]? with
      | none =>
        refine (tries_give (some i) h.tends).congr ?_ ?_
        · rw [work, store_bind, hchild]
        · rw [store_bind, hchild]
      | some child =>
        have hin := h.children hi child (List.mem_of_getElem? hchild)
        have hrest : ∀ visited w', visitor.walkNode m fuel child w = .ok visited w' →
            Tries m G (pure [.advance i (w.store.children i)[index + 1]?]) visited (do
              let s ← Work.store
              if s.isAttached i then
                visitor.walkChildren m fuel i (Visitor.nextIndex (s.children i) visited
                  (w.store.children i)[index + 1]?)
              else return s.replacementOf? i) id w' := by
          intro visited w' hw'
          obtain ⟨T', h'⟩ := h.after_walk hin hw'
          have hfree := h.notMem hi
          refine Tries.turn ?_ h'.tends hfree
          by_cases ha : w'.store.isAttached i = true
          · have hin' := h'.mem_of_isAttached hfree ha
            let index' := Visitor.nextIndex (w'.store.children i) visited (w.store.children i)[index + 1]?
            refine (ih.2 index' visited h' hin').congr ?_ ?_
            · rw [work, store_bind, if_pos ha]
            · rw [store_bind, if_pos ha]
          · refine (tries_give (w'.store.replacementOf? i) h'.tends).congr ?_ ?_
            · rw [work, store_bind, if_neg ha]
            · rw [store_bind, if_neg ha]
        refine ((ih.1 found h hin).append hrest).congr ?_ ?_
        · rw [work, store_bind, hchild]
          rfl
        · rw [store_bind, hchild]

/-- **The loop without bounds passes, and ends with what the pass with bounds ends with**, unless the pass meets a
bound. -/
theorem passes_run (hs : w.store.Sound) (hf : T.Fits) (hn : T.ids.Nodup) (hT : w.store.Holds none T) :
    Meets (Lowering.run T.id) w ∨
      Passes T.id (w.store.outside T) ⟨[.enter], none, w⟩ (outcome (Lowering.run T.id w)) := by
  have hI : w.store.Tends (Guard.idle []) T.id (w.store.outside T) :=
    (Lowering.has_of_holds (w := w) hs hf hn hT).keeps.tends_idle
  have hnode : edit (Edit.node T.id) ⟨w.store, ⟨w.own.catalog, {}⟩⟩ =
      .ok (T.root none) ⟨w.store, ⟨w.own.catalog, {}⟩⟩ := by
    rw [Lower.edit_apply, Edit.node_apply, hT.top]
  have hrun : Lowering.run T.id w = (if T.kind.isModule then
      visitor.walkNode T.id (Lowering.walkBound w.store) T.id >>= fun _ => pure ()
      else throw (.structural (.notAModule T.id))) ⟨w.store, ⟨w.own.catalog, {}⟩⟩ := by
    rw [← T.root_kind none]
    exact bind_of_ok hnode
  have henter : work T.id none .enter w = (if T.kind.isModule then pure [.visit T.id]
      else throw (.structural (.notAModule T.id)) : Lower (List Job)) ⟨w.store, ⟨w.own.catalog, {}⟩⟩ := by
    rw [← T.root_kind none]
    exact bind_of_ok hnode
  by_cases hmod : T.kind.isModule = true
  · have hst : Stands (w.store.outside T) T.id ⟨w.store, ⟨w.own.catalog, {}⟩⟩ T :=
      ⟨rfl, hf.isModule_kind.1 hmod, _, _, Lowering.has_of_holds hs hf hn hT⟩
    rw [if_pos hmod] at hrun henter
    rcases (tries_walk (Lowering.walkBound w.store)).1 none hst T.id_mem_ids with hmeets | htries
    · obtain ⟨e, w', hw', he⟩ := hmeets
      exact .inl ⟨e, w', by rw [hrun, bind_of_error hw'], he⟩
    · refine .inr (Goes.turn hI trivial ?_)
      rw [henter]
      refine htries [] _ ?_
      rw [hrun]
      cases hw' : visitor.walkNode T.id (Lowering.walkBound w.store) T.id ⟨w.store, ⟨w.own.catalog, {}⟩⟩ with
      | ok r w' =>
        obtain ⟨T', h'⟩ := hst.after_walk T.id_mem_ids hw'
        rw [bind_of_ok hw']
        exact .stop ⟨h'.tends, by simp⟩ rfl
      | error e w' =>
        rw [bind_of_error hw']
        rfl
  · refine .inr (Goes.turn hI trivial ?_)
    rw [henter, hrun, if_neg hmod, if_neg hmod]
    rfl

end Unbounded

end ContractTree
