import ContractTree.Proofs.Todo

/-!
The walk of the pass over a store. Below the body of the module, the walk over a tree leaves what `Walked` says
(`Lowering.walkNode_spec`); over the body itself it leaves what `Rooted` says (`Lowering.run_spec`). Both count
what they lower, leave the store as it is if there is nothing to lower, and fail, given fuel for the nodes, only
for a reason that is read off the trees (`Todo.Refuses`). Both need that there is no other module and that the
catalog lists no declaration from inside the tree (`Plain`).
-/

namespace ContractTree

/-- Nothing in the tree changes the catalog, and nothing in it is a declaration that the catalog lists. -/
def Plain (c : Catalog) (t : Tree) : Prop :=
  t.All fun u => u.label ≠ .module ∧ ((∃ a b d, u.label = .variableDecl a b d) → c.declaredAt? u.id = none)

theorem carries_plain {c : Catalog} : Carries c
    (fun u => u.label ≠ .module ∧ ((∃ a b d, u.label = .variableDecl a b d) → c.declaredAt? u.id = none))
    fun u => u.label ≠ .module ∧ ((∃ a b d, u.label = .variableDecl a b d) → c.declaredAt? u.id = none) where
  keep _ h := h
  atom {i ty l} h := by
    refine ⟨?_, ?_⟩
    · rintro rfl
      cases h
    · rintro ⟨a, b, d, rfl⟩
      cases h
  read _ _ := by simp [readTree]
  write _ _ := by simp [writeTree]
  assign := by simp [assignTree]
  binOp := by simp

/-- What is in the place is in a module with the identity `m`. -/
def Ctx.InModule (m : NodeId) (K : Ctx) : Prop := ∀ x : Tree, (K.plug x).id = m ∧ (K.plug x).label = .module

namespace Ctx.InModule

variable {m : NodeId} {K : Ctx} {f : Frame} {es : List Tree}

theorem cons (h : K.InModule m) : InModule m (f :: K) := fun x => h (f.plug [x])

theorem emit (h : K.InModule m) : (K.emit es).InModule m := fun x => by
  rw [id_plug_emit, label_plug_emit]
  exact h x

end Ctx.InModule

/-- What the pass leaves alone in a place that is not subscripted is not too short for an access. -/
theorem Left.not_short {c : Catalog} {K : Ctx} {t : Tree} (h : Left c K t)
    (hK : t.Short c → ∀ l C, K ≠ Link.frame l :: C) : ¬ t.Short c := by
  intro hs
  obtain ⟨l, C, hl⟩ := h.short hs
  exact hK hs l C hl

namespace Lowering

variable {w : Workspace Progress} {c : Catalog} {st : Stats} {G : Outside} {K : Ctx} {t : Tree} {m : NodeId}

theorem isAttached_plug (h : Has w c st [(none, K.plug t)] [] G) (hK : K.InModule m) :
    w.store.isAttached t.id = true :=
  Store.isAttached_of_mem h.holds h.fits
    h.nodup (hK t).2 (Ctx.id_mem_plug _ _)

/-- What a tree needs in its place. -/
def task (c : Catalog) (K : Ctx) (t : Tree) : Todo := .trees c K.inList K.sited [t]

/-- A node is visited, and what replaces it, until one stays. With fuel for two visits it fails only for a reason:
what replaces a node refers to no storage, so that its visit does not fail. -/
theorem settle_spec (fuel : Nat) (h : Has w c st [(none, K.plug t)] [] G) (hK : K.InModule m) (hp : Plain c t) :
    Ends (visitor.settle m fuel t.id) w (fun r w' => (r = some t.id ∧ w' = w ∧ Left c K t) ∨
      ∃ es t' σ, Rewritten c G.next t es t' ∧ r = some t'.id ∧ K.site? t'.id = some σ ∧
        Has w' c (st + t.charge c) [(none, (K.emit es).plug t')] [] G)
      fun e _ => (1 ≤ fuel → ¬ t.Clean c) ∧ (2 ≤ fuel → (task c K t).Refuses e) := by
  induction fuel generalizing w st K t with
  | zero => exact ⟨fun h => absurd h (by simp), fun h => absurd h (by simp)⟩
  | succ fuel ih =>
    unfold Visitor.settle
    rw [ends_bind]
    have hd := dispatch_spec h
    rw [(hK t).1] at hd
    refine hd.mono ?_ ?_
    · intro _ w' hv
      rw [Lower.store_then]
      cases hv with
      | module hl => exact absurd hl hp.top.1
      | left hw hl hleft =>
        subst hw
        rw [if_pos (isAttached_plug h hK)]
        exact .inl ⟨rfl, rfl, hleft⟩
      | declared hl hv =>
        rw [hp.top.2 hl] at hv
        cases hv
      | @rewritten es t' σ ht hσ h' hgone hrep =>
        rw [if_neg (by simp [Store.isAttached_of_notMem hgone]), hrep]
        simp only [isAttached_plug h' hK.emit, if_true]
        refine (ih h' hK.emit (carries_plain.rewritten ht hp).1).mono ?_ ?_
        · rintro r w'' (⟨hr, hw, -⟩ | ⟨es', t'', σ', ht', -⟩)
          · subst hw
            exact .inr ⟨es, t', σ, ht, hr, hσ, h'⟩
          · exact absurd ht.clean.1 ht'.not_clean
        · rintro e w'' ⟨hclean, -⟩
          exact ⟨fun _ => ht.not_clean, fun hfuel => absurd ht.clean.1 (hclean (by omega))⟩
    · rintro e w' ⟨-, hstuck⟩
      cases hstuck with
      | module hl => exact absurd hl hp.top.1
      | declaration hl hset =>
        refine absurd (fun v hv => ?_) hset
        rw [hp.top.2 hl] at hv
        cases hv
      | access hl hc he =>
        refine ⟨fun _ => hc, fun _ => ⟨?_, ?_⟩⟩
        · simpa [task, Todo.trees] using hc
        · simpa [task, Todo.trees] using he

/-! ## The children of a node -/

/-- What the walk over a tree may end with, when it starts with `w₀`. -/
def NodeWalked (c : Catalog) (st : Stats) (G : Outside) (K : Ctx) (t : Tree) (w₀ : Workspace Progress)
    (r : Option NodeId) (w : Workspace Progress) : Prop :=
  ∃ es t', Walked c G.next false [t] es [t'] ∧ r = some t'.id ∧ (es = [] ∨ ∃ σ, K.site? t'.id = some σ) ∧
    Has w c (st + t.charge c) [(none, (K.emit es).plug t')] [] G ∧ (t.Clean c → w = w₀)

/-- What the walk over the children of a node `i`, from one of them on, may end with, when it starts with `w₀` and
has `todo` to do. -/
def ChildrenWalked (c : Catalog) (st : Stats) (G : Outside) (K : Ctx) (i : NodeId) (todo : Todo)
    (R : List Tree → Tree → Prop) (w₀ : Workspace Progress) (r : Option NodeId) (w : Workspace Progress) : Prop :=
  ∃ es t', R es t' ∧ t'.id = i ∧ r = some i ∧ (es = [] ∨ ∃ σ, K.site? i = some σ) ∧
    Has w c (st + todo.stats) [(none, (K.emit es).plug t')] [] G ∧ (todo.clean → w = w₀)

theorem nextIndex_plug {f : Frame} {k : Tree} (hn : (Ctx.plug (f :: K) k).ids.Nodup) (sibling : Option NodeId) :
    Visitor.nextIndex ((f.plug [k]).kids.map Tree.id) (some k.id) sibling = f.before.length + 1 := by
  have hk : k.id ∉ f.before.map Tree.id := (Frame.id_notMem hn).2.1
  have hpos : position? ((f.plug [k]).kids.map Tree.id) k.id = some f.before.length := by
    rw [position?, Frame.kids_plug, List.append_assoc, List.map_append, List.findIdx?_append]
    have : (f.before.map Tree.id).findIdx? (· = k.id) = none := by
      rw [List.findIdx?_eq_none_iff]
      intro i hi
      simpa using fun he : i = k.id => hk (he ▸ hi)
    rw [this]
    simp [List.findIdx?_cons]
  rw [Visitor.nextIndex, Option.bind_some, hpos]

/-- One child is walked, and then those behind it, which the walk over the child may have changed. -/
theorem walkChild {f : Frame} {k : Tree} {fuel : Nat} {R : Option NodeId → Workspace Progress → Prop}
    {E : PassError → Workspace Progress → Prop} (h : Has w c st [(none, Ctx.plug (f :: K) k)] [] G)
    (hnode : Ends (visitor.walkNode m fuel k.id) w
      (fun r w' => ∃ (g : Frame) (K' : Ctx) (k' : Tree) (c' : Catalog) (st' : Stats),
      r = some k'.id ∧ g.id = f.id ∧ Ctx.InModule m (g :: K') ∧
      Has w' c' st' [(none, Ctx.plug (g :: K') k')] [] G ∧
      Ends (visitor.walkChildren m fuel f.id (g.before.length + 1)) w' R E) E) :
    Ends (visitor.walkChildren m (fuel + 1) f.id f.before.length) w R E := by
  have hchildren : ∀ {w : Workspace Progress} {c : Catalog} {st : Stats} {g : Frame} {K : Ctx} {k : Tree},
      Has w c st [(none, Ctx.plug (g :: K) k)] [] G → w.store.children g.id = (g.plug [k]).kids.map Tree.id := by
    intro w c st g K k h
    have hin := Store.Holds.inside (C := K) (t := g.plug [k]) h.holds
    have := hin.children (Ctx.fits_of_plug (C := K) h.fits)
    rwa [Frame.id_plug] at this
  unfold Visitor.walkChildren
  rw [Lower.store_then]
  dsimp only
  have hget : (w.store.children f.id)[f.before.length]? = some k.id := by
    rw [hchildren h, Frame.kids_plug]
    simp
  rw [hget]
  dsimp only
  rw [ends_bind]
  refine hnode.mono ?_ fun _ _ h => h
  rintro r w' ⟨g, K', k', c', st', rfl, hid, hK, h', hrest⟩
  rw [Lower.store_then]
  have hatt : w'.store.isAttached f.id = true := by
    refine Store.isAttached_of_mem h'.holds h'.fits
      h'.nodup (hK k').2 ?_
    exact (Ctx.mem_ids_plug _ _ _).2 (.inl (hid ▸ List.mem_cons_self))
  rw [if_pos hatt, ← hid, hchildren h', nextIndex_plug h'.nodup, hid]
  exact hrest

/-- What the walk over one tree does, given so much fuel. -/
def WalksNode (c : Catalog) (G : Outside) (m : NodeId) (fuel : Nat) : Prop :=
  ∀ (w : Workspace Progress) (st : Stats) (K : Ctx) (t : Tree), Has w c st [(none, K.plug t)] [] G → K.InModule m →
    Plain c t → (t.Short c → ∀ l C, K ≠ Link.frame l :: C) →
    Ends (visitor.walkNode m fuel t.id) w (NodeWalked c st G K t w)
      fun e _ => 2 * t.ids.length + 1 ≤ fuel → (task c K t).Refuses e

/-- What the walk over the children of `i` from the index on does, given so much fuel. -/
def WalksChildren (c : Catalog) (G : Outside) (m : NodeId) (fuel : Nat) (w : Workspace Progress) (st : Stats)
    (K : Ctx) (i : NodeId) (index : Nat) (todo : Todo) (R : List Tree → Tree → Prop) : Prop :=
  Ends (visitor.walkChildren m fuel i index) w (ChildrenWalked c st G K i todo R w)
    fun e _ => 2 * todo.size + 2 ≤ fuel → todo.Refuses e

/-- One list of children is walked, and then what follows it. Here `done` has been walked, `todo` has not, and `R`
is what the rest of the walk ensures. -/
theorem walkPart {f : Frame} {n : Todo} {R : List Tree → Tree → Prop} (hf : f.right = [])
    (fuel : Nat) (hnode : ∀ k < fuel, WalksNode c G m k)
    (hnext : ∀ k ≤ fuel, ∀ (w : Workspace Progress) (st : Stats) (K : Ctx) (done : List Tree),
      Has w c st [(none, K.plug ((f.push done).plug []))] [] G → K.InModule m →
      WalksChildren c G m k w st K f.id (f.push done).before.length n fun es t' => es = [] ∧ R done t')
    (w : Workspace Progress) (st : Stats) (K : Ctx) (done todo : List Tree)
    (h : Has w c st [(none, K.plug ((f.push done).plug todo))] [] G) (hK : K.InModule m)
    (hp : ∀ k ∈ todo, Plain c k) (hshort : f.part = .heads → done = [] → f.left = [] → f.label = .subscript →
      ∀ k ∈ todo.head?, ¬ k.Short c) :
    WalksChildren c G m fuel w st K f.id (f.push done).before.length
      ((Todo.trees c (Ctx.inList (f :: K)) (Ctx.sited (f :: K)) todo).and n)
      fun es t' => ∃ todo', Walked c G.next (f.part ≠ .heads) todo es todo' ∧ R (done ++ todo') t' := by
  induction fuel generalizing w st K done todo with
  | zero => exact fun h => absurd h (by simp)
  | succ fuel ih =>
    cases todo with
    | nil =>
      rw [Todo.trees_nil, Todo.nothing_and]
      refine (hnext _ (Nat.le_refl _) w st K done h hK).mono ?_ fun _ _ h => h
      rintro r w' ⟨es, t', ⟨rfl, hR⟩, hrest⟩
      exact ⟨[], t', ⟨[], .nil, by simpa using hR⟩, hrest⟩
    | cons k rest =>
      let g : Frame := { f.push done with right := rest }
      have hplug : ∀ xs : List Tree, g.plug xs = (f.push done).plug (xs ++ rest) := by
        intro xs
        obtain ⟨i, ty, l, part, left, right, first, second⟩ := f
        obtain rfl : right = [] := hf
        cases part <;> simp [g, Frame.plug, Frame.push]
      have hpush : ∀ xs : List Tree, (f.push (done ++ xs)).plug rest = g.plug xs := by
        intro xs
        rw [hplug, ← Frame.push_push, Frame.plug_push]
      have hlen : ∀ xs : List Tree, (f.push (done ++ xs)).before.length = g.before.length + xs.length := by
        intro xs
        rw [← Frame.push_push, Frame.before_push, List.length_append]
        rfl
      have hg : Has w c st [(none, Ctx.plug (g :: K) k)] [] G := by
        rw [Ctx.plug_cons, hplug]
        exact h
      have hkshort : k.Short c → ∀ l C, g :: K ≠ Link.frame l :: C := by
        rintro hk l C heq
        have hgl : g = Link.frame l := (List.cons.inj heq).1
        have hleft : f.left ++ done = [] := congrArg Frame.left hgl
        obtain ⟨h1, h2⟩ := List.append_eq_nil_iff.1 hleft
        exact hshort (congrArg Frame.part hgl) h2 h1 (congrArg Frame.label hgl) k rfl hk
      have ih' := ih (fun k hk => hnode k (Nat.lt_succ_of_lt hk)) (fun k hk => hnext k (Nat.le_succ_of_le hk))
      have hpos := k.length_ids_pos
      have hp' : ∀ k ∈ rest, Plain c k := fun k hk => hp k (List.mem_cons_of_mem _ hk)
      have htask : Todo.trees c (Ctx.inList (f :: K)) (Ctx.sited (f :: K)) [k] = task c (g :: K) k := rfl
      rw [Todo.trees_cons, htask, Todo.assoc]
      have hsize : ∀ b : Todo, ((task c (g :: K) k).and b).size = k.ids.length + b.size := by
        simp [task, Todo.trees, Todo.and]
      have hstats : ∀ b : Todo, st + k.charge c + b.stats = st + ((task c (g :: K) k).and b).stats := by
        simp [task, Todo.trees, Todo.and, Stats.add_assoc]
      have hclean : ∀ b : Todo, ((task c (g :: K) k).and b).clean → k.Clean c ∧ b.clean := by
        simp [task, Todo.trees, Todo.and]
      refine walkChild hg ((hnode fuel (Nat.lt_succ_self _) w st (g :: K) k hg hK.cons (hp k List.mem_cons_self)
        hkshort).mono ?_ ?_)
      rotate_left
      · intro e w' he hfuel
        rw [hsize] at hfuel
        exact (he (by omega)).left
      rintro r w' ⟨es, k', hk, rfl, hσ, h', hkeep⟩
      by_cases hpart : f.part = .heads
      · rw [Ctx.emit_heads (by exact hpart)] at h'
        refine ⟨g, K.emit es, k', c, _, rfl, rfl, hK.emit.cons, h', ?_⟩
        have hw : Has w' c (st + k.charge c) [(none, (K.emit es).plug ((f.push (done ++ [k'])).plug rest))]
            [] G := by
          rw [hpush]
          exact h'
        have hthis := ih' w' _ (K.emit es) (done ++ [k']) rest hw hK.emit hp' (by simp)
        have hsited : Ctx.sited (f :: K.emit es) = Ctx.sited (f :: K) := by simp [Ctx.sited]
        have hlist : Ctx.inList (f :: K.emit es) = Ctx.inList (f :: K) := rfl
        rw [hlen, hsited, hlist] at hthis
        refine hthis.mono ?_ fun e w'' he hfuel => (he (by rw [hsize] at hfuel; omega)).right
        rintro r w'' ⟨es', t', ⟨todo', htodo, hR⟩, hid, hr, hσ', hw'', hkeep'⟩
        simp only [hpart, ne_eq, not_true_eq_false, decide_false] at htodo ⊢
        refine ⟨es ++ es', t', ⟨k' :: todo', hk.cons htodo, by simpa using hR⟩, hid, hr, ?_, ?_, fun hc => ?_⟩
        · rcases hσ with rfl | ⟨σ, hσ⟩
          · simpa using hσ'
          · rw [Ctx.site?_heads (by exact hpart)] at hσ
            exact .inr ⟨σ, hσ⟩
        · rw [hstats] at hw''
          simpa using hw''
        · obtain ⟨hck, hcr⟩ := hclean _ hc
          rw [hkeep' hcr, hkeep hck]
      · rw [Ctx.emit_list (by exact hpart)] at h'
        refine ⟨g.push es, K, k', c, _, rfl, rfl, hK.cons, h', ?_⟩
        have hw : Has w' c (st + k.charge c) [(none, K.plug ((f.push (done ++ (es ++ [k']))).plug rest))]
            [] G := by
          rw [hpush, ← Frame.plug_push]
          exact h'
        have hthis := ih' w' _ K (done ++ (es ++ [k'])) rest hw hK hp' (by simp)
        rw [hlen, List.length_append, List.length_singleton, ← Nat.add_assoc] at hthis
        rw [Frame.before_push, List.length_append]
        refine hthis.mono ?_ fun e w'' he hfuel => (he (by rw [hsize] at hfuel; omega)).right
        rintro r w'' ⟨es', t', ⟨todo', htodo, hR⟩, hid, hr, hσ', hw'', hkeep'⟩
        simp only [hpart, ne_eq, not_false_eq_true, decide_true] at htodo ⊢
        obtain rfl : es' = [] := by cases htodo <;> rfl
        rw [hstats] at hw''
        refine ⟨[], t', ⟨es ++ k' :: todo', .stmt hk htodo, by simpa using hR⟩, hid, hr, .inl rfl, hw'',
          fun hc => ?_⟩
        obtain ⟨hck, hcr⟩ := hclean _ hc
        rw [hkeep' hcr, hkeep hck]

section Lists

variable {i : NodeId} {ty : Option Ty} {l : Label} {hs bs os : List Tree}

theorem walkOrelse (hl : l ≠ .module) (fuel : Nat) (hnode : ∀ k < fuel, WalksNode c G m k)
    (h : Has w c st [(none, K.plug (.node i ty l hs bs os))] [] G) (hK : K.InModule m) (hp : ∀ k ∈ os, Plain c k) :
    WalksChildren c G m fuel w st K i (hs ++ bs).length (.trees c true true os)
      fun es t' => es = [] ∧ ∃ os', Walked c G.next true os [] os' ∧ t' = .node i ty l hs bs os' := by
  let f : Frame := ⟨i, ty, l, .orelse, [], [], hs, bs⟩
  have hplug : ∀ done todo, (f.push done).plug todo = .node i ty l hs bs (done ++ todo) := by
    intro done todo
    simp [f, Frame.push, Frame.plug]
  have hbefore : ∀ done, (f.push done).before = hs ++ bs ++ done := by
    intro done
    simp [f, Frame.push, Frame.before]
  have hsited : Ctx.sited (f :: K) = true := by simp [Ctx.sited, f, hl]
  have hwalk := walkPart (f := f) (n := .nothing) (R := fun done t' => t' = .node i ty l hs bs done)
    rfl fuel hnode ?_ w st K [] os (by rw [hplug]; exact h) hK hp (by simp [f])
  · rw [hbefore, List.append_nil, Todo.and_nothing, hsited] at hwalk
    refine hwalk.mono ?_ fun _ _ he => he
    rintro r w' ⟨es, t', ⟨os', hos, ht'⟩, hrest⟩
    obtain rfl : es = [] := by cases hos <;> rfl
    exact ⟨[], t', ⟨rfl, os', hos, ht'⟩, hrest⟩
  · intro k _ w st K done h hK
    rw [hplug, List.append_nil] at h
    cases k with
    | zero => exact fun h => absurd h (by simp)
    | succ k =>
      unfold WalksChildren Visitor.walkChildren
      rw [Lower.store_then]
      dsimp only
      have hch := h.holds.inside.children
        (Ctx.fits_of_plug h.fits)
      have hget : (w.store.children f.id)[(f.push done).before.length]? = none := by
        rw [show w.store.children f.id = _ from hch, hbefore]
        simp
      rw [hget]
      exact ⟨[], _, ⟨rfl, rfl⟩, rfl, rfl, .inl rfl, by simpa [Todo.nothing] using h, fun _ => rfl⟩

theorem walkBody (hl : l ≠ .module) (fuel : Nat) (hnode : ∀ k < fuel, WalksNode c G m k)
    (h : Has w c st [(none, K.plug (.node i ty l hs bs os))] [] G) (hK : K.InModule m)
    (hp : ∀ k ∈ bs ++ os, Plain c k) :
    WalksChildren c G m fuel w st K i hs.length ((Todo.trees c true true bs).and (.trees c true true os))
      fun es t' => es = [] ∧ ∃ bs' os', Walked c G.next true bs [] bs' ∧ Walked c G.next true os [] os' ∧
        t' = .node i ty l hs bs' os' := by
  let f : Frame := ⟨i, ty, l, .body, [], [], hs, os⟩
  have hplug : ∀ done todo, (f.push done).plug todo = .node i ty l hs (done ++ todo) os := by
    intro done todo
    simp [f, Frame.push, Frame.plug]
  have hbefore : ∀ done, (f.push done).before = hs ++ done := by
    intro done
    simp [f, Frame.push, Frame.before]
  have hsited : Ctx.sited (f :: K) = true := by simp [Ctx.sited, f, hl]
  have hwalk := walkPart (f := f) (n := .trees c true true os)
    (R := fun done t' => ∃ os', Walked c G.next true os [] os' ∧ t' = .node i ty l hs done os') rfl
    fuel hnode ?_ w st K [] bs (by rw [hplug]; exact h) hK (fun k hk => hp k (List.mem_append_left _ hk))
    (by simp [f])
  · rw [hbefore, List.append_nil, hsited] at hwalk
    refine hwalk.mono ?_ fun _ _ he => he
    rintro r w' ⟨es, t', ⟨bs', hbs, os', hos, ht'⟩, hrest⟩
    obtain rfl : es = [] := by cases hbs <;> rfl
    exact ⟨[], t', ⟨rfl, bs', os', hbs, hos, ht'⟩, hrest⟩
  · intro k hk w st K done h hK
    rw [hplug, List.append_nil] at h
    rw [hbefore]
    exact walkOrelse hl k (fun j hj => hnode j (Nat.lt_of_lt_of_le hj hk)) h hK
      fun k hk => hp k (List.mem_append_right _ hk)

/-- All children of a node are walked. -/
theorem walkKids (hl : l ≠ .module) (fuel : Nat) (hnode : ∀ k < fuel, WalksNode c G m k)
    (h : Has w c st [(none, K.plug (.node i ty l hs bs os))] [] G) (hK : K.InModule m)
    (hp : ∀ k ∈ hs ++ bs ++ os, Plain c k) (hshort : l = .subscript → ∀ k ∈ hs.head?, ¬ k.Short c) :
    WalksChildren c G m fuel w st K i 0 (.below c K.sited hs bs os)
      fun es t' => ∃ hs' bs' os', Walked c G.next false hs es hs' ∧ Walked c G.next true bs [] bs' ∧
        Walked c G.next true os [] os' ∧ t' = .node i ty l hs' bs' os' := by
  let f : Frame := ⟨i, ty, l, .heads, [], [], bs, os⟩
  have hplug : ∀ done todo, (f.push done).plug todo = .node i ty l (done ++ todo) bs os := by
    intro done todo
    simp [f, Frame.push, Frame.plug]
  have hbefore : ∀ done, (f.push done).before = done := by
    intro done
    simp [f, Frame.push, Frame.before]
  have hwalk := walkPart (f := f) (n := (Todo.trees c true true bs).and (.trees c true true os))
    (R := fun done t' => ∃ bs' os', Walked c G.next true bs [] bs' ∧ Walked c G.next true os [] os' ∧
    t' = .node i ty l done bs' os') rfl fuel hnode ?_ w st K [] hs (by rw [hplug]; exact h) hK
    (fun k hk => hp k (by simp [hk])) (fun _ _ _ => hshort)
  · rw [hbefore] at hwalk
    refine hwalk.mono ?_ fun _ _ he => he
    rintro r w' ⟨es, t', ⟨hs', hhs, bs', os', hbs, hos, ht'⟩, hrest⟩
    exact ⟨es, t', ⟨hs', bs', os', hhs, hbs, hos, ht'⟩, hrest⟩
  · intro k hk w st K done h hK
    rw [hplug, List.append_nil] at h
    rw [hbefore]
    refine walkBody hl k (fun j hj => hnode j (Nat.lt_of_lt_of_le hj hk)) h hK fun k hk => hp k ?_
    rw [List.append_assoc]
    exact List.mem_append_right _ hk

end Lists

/-! ## The walk over a tree -/

/-- The children of a tree that was left alone are walked. -/
theorem walkKids_left (fuel : Nat) (hnode : ∀ k < fuel, WalksNode c G m k) (h : Has w c st [(none, K.plug t)] [] G)
    (hK : K.InModule m) (hl : t.label ≠ .module) (hp : ∀ k ∈ t.kids, Plain c k) (ha : t.access? c = none)
    (hno : ¬ t.Short c)
    (ht : (t.label = .assign ∨ ∃ op, t.label = .augAssign op) → ∀ target ∈ t.heads.head?, target.reach c = none) :
    Ends (visitor.walkChildren m fuel t.id 0) w (NodeWalked c st G K t w)
      fun e _ => 2 * t.ids.length ≤ fuel → (task c K t).Refuses e := by
  have hft : t.Fits := Ctx.fits_of_plug h.fits
  have hr : t.receiver? c = none := by
    cases hr : t.receiver? c with
    | none => rfl
    | some v =>
      rcases Tree.access?_or_short hr with h | h
      · rw [ha] at h
        cases h
      · exact absurd h hno
  have hshort : t.label = .subscript → ∀ k ∈ t.heads.head?, ¬ k.Short c := by
    intro hl k hk
    rcases hft.subscript_cases with ⟨i, ty, v, key, rfl⟩ | hl'
    · obtain rfl : v = k := Option.some.inj hk
      exact Lower.not_short_of_frame (l := ⟨i, ty, key⟩) ha hno
    · exact absurd hl hl'
  obtain ⟨i, ty, l, hs, bs, os⟩ := t
  have hnode' : task c K (.node i ty l hs bs os) = _ := Todo.trees_node hr ha ht
  have hsize := congrArg Todo.size hnode'
  have hstats := congrArg Todo.stats hnode'
  have hclean := congrArg Todo.clean hnode'
  simp only [task, Todo.trees, List.flatMap_cons, List.flatMap_nil, List.append_nil, Tree.chargeAll_cons,
    Tree.chargeAll_nil, Stats.add_zero, List.forall_mem_singleton] at hsize hstats hclean
  refine (walkKids hl fuel hnode h hK hp hshort).mono ?_ ?_
  · rintro r w' ⟨es, t', ⟨hs', bs', os', hhs, hbs, hos, rfl⟩, -, hr', hσ, h', hkeep⟩
    refine ⟨es, .node i ty l hs' bs' os', ?_, hr', hσ, by rw [hstats]; exact h', fun hc => hkeep (hclean ▸ hc)⟩
    have := Walked.inner hr ht hhs hbs hos .nil
    rwa [List.append_nil] at this
  · intro e w' he hfuel
    rw [hnode']
    exact (he (by omega)).mono id And.right id

/-- **The walk over a tree.** -/
theorem walkNode_spec (fuel : Nat) : WalksNode c G m fuel := by
  induction fuel using Nat.strongRecOn with
  | ind fuel ih =>
    intro w st K t h hK hp hshort
    have hpos := t.length_ids_pos
    cases fuel with
    | zero => exact fun h => absurd h (by simp)
    | succ fuel =>
      have ih' : ∀ k < fuel, WalksNode c G m k := fun k hk => ih k (Nat.lt_succ_of_lt hk)
      unfold Visitor.walkNode
      rw [ends_bind]
      refine (settle_spec fuel h hK hp).mono ?_ fun e w' he hfuel => he.2 (by omega)
      rintro r w' (⟨rfl, rfl, hleft⟩ | ⟨es, t', σ, ht, rfl, hσ, h'⟩)
      · exact (walkKids_left fuel ih' h hK hp.top.1 (fun k hk => hp.kid hk) hleft.access (hleft.not_short hshort)
          hleft.target).mono (fun _ _ h => h) fun e w' he hfuel => he (by omega)
      · -- what replaced the tree does not refer to storage, so that the walk over it changes nothing
        have hc : t'.Clean c := ht.clean.1
        have hp' : Plain c t' := (carries_plain.rewritten ht hp).1
        have hs' : ¬ t'.Short c := by
          rintro ⟨v, hv, -⟩
          rw [hc.reach] at hv
          cases hv
        refine (walkKids_left fuel ih' h' hK.emit hp'.top.1 (fun k hk => hp'.kid hk) hc.access? hs'
          fun _ target htarget => ?_).mono ?_ ?_
        · have hkid : target ∈ t'.kids := by
            simp only [Tree.kids, List.mem_append]
            exact .inl (.inl (List.mem_of_mem_head? htarget))
          exact (hc.kid hkid).reach
        · rintro r w'' ⟨es', t'', hw, hr, -, h'', hkeep⟩
          obtain ⟨rfl, heq⟩ := hw.eq_of_clean (by simpa using hc)
          obtain rfl : t'' = t' := (List.cons.inj heq).1
          obtain rfl := hkeep hc
          refine ⟨es, t'', ?_, hr, .inr ⟨σ, hσ⟩, h', fun hc => absurd hc ht.not_clean⟩
          have := Walked.rewrite ht .nil
          rwa [List.append_nil] at this
        · intro e w'' he hfuel
          have hsize := ht.length_ids_le (Ctx.fits_of_plug h.fits)
          refine absurd ?_ (he (by omega)).1
          simpa [task, Todo.trees] using hc

/-! ## The body of the module -/

section Root

variable {ty : Option Ty} {d : Tree} {done rest : List Tree}

/-- What the walk needs to know of a declaration of the module. -/
structure PlainDecl (c : Catalog) (d : Tree) : Prop where
  label : d.label ≠ .module
  kids : ∀ k ∈ d.kids, Plain c k

theorem plainDecl_getter {v : StorageVar} {g : Tree} (h : Getter v g) : PlainDecl c g := by
  have hp : Plain c g := h.all (by simp [Tree.leaf]) (by simp [readTree]) (by simp) (by simp)
  exact ⟨hp.top.1, fun k hk => hp.kid hk⟩

theorem PlainDecl.declareSlot {v : StorageVar} (h : PlainDecl c d) : PlainDecl c (d.declareSlot v) :=
  ⟨by rw [Tree.label_declareSlot]; exact h.label,
    Tree.all_kids_declareSlot (fun hid hl hu => by rwa [hid, hl]) h.kids⟩

/-- The place of a declaration in the module. -/
def rootFrame (m : NodeId) (ty : Option Ty) (done rest : List Tree) :
    Frame := ⟨m, ty, .module, .body, done, rest, [], []⟩

theorem rootFrame_plug (us : List Tree) :
    (rootFrame m ty done rest).plug us = .node m ty .module [] (done ++ us ++ rest) [] := rfl

theorem inModule_rootFrame : Ctx.InModule m [rootFrame m ty done rest] := fun _ => ⟨rfl, rfl⟩

theorem functionNames_replace {d' : Tree} (h : d'.label = d.label) :
    Tree.functionNames (done ++ d' :: rest) = Tree.functionNames (done ++ d :: rest) := by
  simp only [Tree.functionNames, List.filterMap_append, List.filterMap_cons, Tree.functionName?_congr h]

theorem functionNames_body {v : StorageVar} :
    Tree.functionNames (Ctx.plug [rootFrame m ty done rest] (d.declareSlot v)).body =
    Tree.functionNames (done ++ d :: rest) := by
  rw [Ctx.plug_cons, Ctx.plug_nil, rootFrame_plug, Tree.body_node, List.append_assoc]
  exact functionNames_replace Tree.label_declareSlot

/-- The children of a declaration are walked. No statement can be emitted in the body of a module. -/
theorem walkDecl_kids (fuel : Nat) (h : Has w c st [(none, Ctx.plug [rootFrame m ty done rest] d)] [] G)
    (hd : PlainDecl c d) (hleft : Left c [rootFrame m ty done rest] d) :
    Ends (visitor.walkChildren m fuel d.id 0) w (fun r w' => ∃ d', r = some d'.id ∧
      Walked c G.next false [d] [] [d'] ∧
      Has w' c (st + d.charge c) [(none, Ctx.plug [rootFrame m ty done rest] d')] [] G ∧ (d.Clean c → w' = w))
      fun e _ => 2 * d.ids.length ≤ fuel → (Todo.trees c true false [d]).Refuses e := by
  have hshort : d.Short c → ∀ l C, [rootFrame m ty done rest] ≠ Link.frame l :: C := by
    intro _ l C heq
    cases congrArg Frame.part (List.cons.inj heq).1
  refine (walkKids_left _ (fun k _ => walkNode_spec k) h inModule_rootFrame hd.label hd.kids hleft.access
    (hleft.not_short hshort) hleft.target).mono ?_ fun _ _ he => he
  rintro r w' ⟨es, d', hw, hr, hσ, h', hkeep⟩
  obtain rfl : es = [] := by
    rcases hσ with hσ | ⟨σ, hσ⟩
    · exact hσ
    · cases hσ
  exact ⟨d', hr, hw, by simpa using h', hkeep⟩

/-- The walk over one declaration of the module, whose getter may be put at the end. -/
theorem walkDecl (fuel : Nat) (h : Has w c st [(none, Ctx.plug [rootFrame m ty done rest] d)] [] G)
    (hd : PlainDecl c d) : Ends (visitor.walkNode m fuel d.id) w (fun r w' => ∃ d' gs, r = some d'.id ∧
      DeclWalked c G.next (Tree.functionNames (done ++ d :: rest)) d gs d' ∧
      Has w' c (st + (Todo.decl c (Tree.functionNames (done ++ d :: rest)) d).stats)
        [(none, Ctx.plug [rootFrame m ty done (rest ++ gs)] d')] [] G ∧
      ((Todo.decl c (Tree.functionNames (done ++ d :: rest)) d).clean → w' = w))
      fun e _ => 2 * d.ids.length + 1 ≤ fuel →
      (Todo.decl c (Tree.functionNames (done ++ d :: rest)) d).Refuses e := by
  have hft : d.Fits := Ctx.fits_of_plug h.fits
  have hpos := d.length_ids_pos
  have hrefuses : ∀ {e : PassError} {names : List String}, (Todo.trees c true false [d]).Refuses e →
      (Todo.decl c names d).Refuses e := by
    intro e names he
    refine he.mono (fun hc => by simpa [Todo.trees] using hc.2)
      (fun hp => by simpa [Todo.trees, Todo.decl] using hp) And.right
  cases fuel with
  | zero => exact fun h => absurd h (by simp)
  | succ fuel =>
  cases fuel with
  | zero => exact fun h => absurd h (by omega)
  | succ fuel =>
    unfold Visitor.walkNode Visitor.settle
    rw [bind_assoc, ends_bind]
    refine (dispatch_spec h).mono ?_ ?_
    · intro _ w' hv
      rw [bind_assoc, Lower.store_then]
      cases hv with
      | module hl => exact absurd hl hd.label
      | left hw hl hleft =>
        subst hw
        rw [if_pos (isAttached_plug h inModule_rootFrame)]
        refine (walkDecl_kids (fuel + 1) h hd hleft).mono ?_ fun e _ he hfuel => hrefuses (he (by omega))
        rintro r w'' ⟨d', hr, hw, h', hkeep⟩
        refine ⟨d', [], hr, .kept hleft.settled hw, ?_, fun hc => hkeep hc.2⟩
        simpa [Todo.decl, Tree.getterVar?_of_settled hleft.settled] using h'
      | @declared v gs hl hv hty hgs hfree h' =>
        have h'' : Has w' c (st + { getters := gs.length })
            [(none, Ctx.plug [rootFrame m ty done (rest ++ gs)] (d.declareSlot v))] [] G := by
          have heq : (Ctx.plug [rootFrame m ty done rest] (d.declareSlot v)).addDecls gs =
              Ctx.plug [rootFrame m ty done (rest ++ gs)] (d.declareSlot v) := by
            simp [rootFrame, Frame.plug, Tree.addDecls]
          rwa [heq] at h'
        have hatt := isAttached_plug h'' inModule_rootFrame
        rw [Tree.id_declareSlot] at hatt
        have hlab := hl
        obtain ⟨a, b, e, hlab⟩ := hlab
        have hgo := walkDecl_kids (fuel + 1) h'' hd.declareSlot
          (.of_label (by simp [hlab]) (by simp [hlab]) (by simp [hlab]) fun _ => Tree.settled_declareSlot hft hl)
        have htrees : Todo.trees c true false [d.declareSlot v] = .trees c true false [d] :=
          Todo.trees_declareSlot hft hl
        rw [Tree.id_declareSlot, Tree.ids_declareSlot, htrees] at hgo
        rw [if_pos hatt]
        refine hgo.mono ?_ fun e _ he hfuel => hrefuses (he (by omega))
        rintro r w'' ⟨d', hr, hw, h', -⟩
        have hwalked : DeclWalked c G.next (Tree.functionNames (done ++ d :: rest)) d gs d' := by
          exact .declared hl hv hty hgs (fun hp => functionNames_body ▸ hfree v hv hp) hw
        refine ⟨d', gs, hr, hwalked, ?_, fun hc => ?_⟩
        · have hcharge : (d.declareSlot v).charge c = d.charge c := by
            simpa [Todo.trees] using congrArg Todo.stats htrees
          have hlen : gs.length = (d.getterVar? c).toList.length := by
            rcases hwalked.getters with ⟨hnone, rfl⟩ | ⟨v, g, hsome, rfl, -⟩
            · rw [hnone]
              rfl
            · rw [hsome]
              rfl
          rw [hcharge, Stats.add_assoc, Stats.add_comm { getters := gs.length }, hlen] at h'
          exact h'
        · rw [hc.1 hl v hv] at hty
          cases hty
      | rewritten ht hσ => cases hσ
    · rintro e w' ⟨-, hstuck⟩ hfuel
      cases hstuck with
      | module hl => exact absurd hl hd.label
      | declaration hl hset he =>
        refine ⟨fun hc => hset (hc.1 hl), (he rfl).mono (fun _ => trivial) fun hable v v' hv' hp => ?_⟩
        have hty : d.ty.any Ty.isSlot = false := by
          by_contra hslot
          exact hset fun _ _ => by simpa using hslot
        rw [functionNames_body]
        exact hable.1 v' (by rw [Tree.getterVar?_of_declared hl hv' hty, hp]; rfl)
      | access hl hc he =>
        refine hrefuses ⟨by simpa [Todo.trees] using hc, ?_⟩
        simpa [Todo.trees, Ctx.inList, Ctx.sited, rootFrame] using he

/-- The walk over the body of the module. -/
theorem walkRoot (fuel : Nat) {todo : List Tree}
    (h : Has w c st [(none, .node m ty .module [] (done ++ todo) [])] [] G) (hp : ∀ d ∈ todo, PlainDecl c d) :
    Ends (visitor.walkChildren m fuel m done.length) w (fun _ w' => ∃ todo',
      Rooted c G.next (Tree.functionNames (done ++ todo)) todo todo' ∧
      Has w' c (st + (Todo.root c (Tree.functionNames (done ++ todo)) todo).stats)
        [(none, .node m ty .module [] (done ++ todo') [])] [] G ∧
      ((Todo.root c (Tree.functionNames (done ++ todo)) todo).clean → w' = w))
      fun e _ => 2 * (Todo.root c (Tree.functionNames (done ++ todo)) todo).size + 2 ≤ fuel →
        (Todo.root c (Tree.functionNames (done ++ todo)) todo).Refuses e := by
  induction fuel generalizing w st done todo with
  | zero => exact fun h => absurd h (by simp)
  | succ fuel ih =>
    cases todo with
    | nil =>
      unfold Visitor.walkChildren
      rw [Lower.store_then]
      dsimp only
      have hch := h.holds.children h.fits
      have hget : (w.store.children m)[done.length]? = none := by
        rw [show w.store.children m = _ from hch]
        simp
      rw [hget]
      exact ⟨[], .nil, by simpa [Todo.root, Tree.getterNames] using h, fun _ => rfl⟩
    | cons d rest =>
      have hplug : ∀ {d : Tree} {rest : List Tree}, Ctx.plug [rootFrame m ty done rest] d =
          .node m ty .module [] (done ++ [d] ++ rest) [] := rfl
      have hroot : Has w c st [(none, Ctx.plug [rootFrame m ty done rest] d)] [] G := by
        rw [hplug]
        simpa using h
      have hpos := d.length_ids_pos
      have hsize : d.ids.length ≤ (Todo.root c (Tree.functionNames (done ++ d :: rest)) (d :: rest)).size :=
        Todo.length_ids_le_root
      refine walkChild (f := rootFrame m ty done rest) (K := []) hroot
        ((walkDecl fuel hroot (hp d List.mem_cons_self)).mono ?_ fun e w' he hfuel => (he (by omega)).root)
      rintro r w' ⟨d', gs, rfl, hd, h', hkeep⟩
      refine ⟨rootFrame m ty done (rest ++ gs), [], d', c, _, rfl, rfl, inModule_rootFrame, h', ?_⟩
      rw [hplug] at h'
      have hrest : ∀ e ∈ rest, PlainDecl c e := fun e he => hp e (List.mem_cons_of_mem _ he)
      have hgs : ∀ e ∈ gs, PlainDecl c e := by
        rcases hd.getters with ⟨-, rfl⟩ | ⟨v, g, -, rfl, hg, -⟩
        · simp
        · simpa using plainDecl_getter hg
      -- the rest of the queue, with the getters at its end
      have hnames : Tree.functionNames (done ++ [d'] ++ (rest ++ gs)) =
          Tree.functionNames (done ++ d :: rest) ++ Tree.functionNames gs := by
        rw [← functionNames_replace hd.label, Tree.functionNames, Tree.functionNames, Tree.functionNames,
          ← List.filterMap_append]
        simp
      have hgo := ih h' fun e he => (List.mem_append.1 he).elim (hrest e) (hgs e)
      rw [List.length_append, List.length_singleton, hnames] at hgo
      rw [Todo.root_cons hd]
      refine hgo.mono ?_ fun e w'' he hfuel => (he ?_).right
      · rintro _ w'' ⟨todo', htodo, hw, hkeep'⟩
        refine ⟨d' :: todo', .cons hd htodo, ?_, fun hc => ?_⟩
        · rw [Stats.add_assoc] at hw
          simpa [Todo.and] using hw
        · rw [hkeep' hc.2, hkeep hc.1]
      · simp only [Todo.and, Todo.decl] at hfuel
        omega

/-- Below a declaration there is none that the catalog of the body lists. -/
theorem plainDecl_of_mem {body : List Tree} (hn : (body.flatMap Tree.ids).Nodup) (hd : d ∈ body)
    (hm : d.All fun u => u.label ≠ .module) : PlainDecl (Tree.catalogOf body) d := by
  have hids : ∀ u : Tree, u.id ∉ body.map Tree.id → (Tree.catalogOf body).declaredAt? u.id = none := by
    intro u hu
    rw [Catalog.declaredAt?, List.find?_eq_none]
    intro v hv hdecl
    obtain ⟨t, ht, hvar⟩ := Tree.exists_decl_of_mem_catalogOf hv
    have : v.decl = u.id := by simpa using hdecl
    exact hu (List.mem_map.2 ⟨t, ht, by rw [← Tree.decl_of_stateVar? hvar, this]⟩)
  have hplain : ∀ k : Tree, k.All (fun u => u.label ≠ .module) → (∀ i ∈ k.ids, i ∉ body.map Tree.id) →
      Plain (Tree.catalogOf body) k := by
    intro k
    induction k with
    | step k ih =>
      intro hk hout
      refine Tree.all_iff.2 ⟨⟨hk.top, fun _ => hids k (hout _ k.id_mem_ids)⟩, fun j hj => ?_⟩
      exact ih j hj (hk.kid hj) fun i hi => hout i (Tree.ids_subset_of_mem_kids hj hi)
  refine ⟨hm.top, fun k hk => hplain k (hm.kid hk) fun i hi hbody => ?_⟩
  obtain ⟨e, he, rfl⟩ := List.mem_map.1 hbody
  obtain rfl := Tree.eq_of_mem_ids hn hd he (Tree.ids_subset_of_mem_kids hk hi)
  obtain ⟨xs, ys, rfl⟩ := List.append_of_mem hd
  rw [List.flatMap_append, List.flatMap_cons, List.nodup_append', List.nodup_append'] at hn
  have hdn := hn.2.1.1
  rw [Tree.ids_eq, List.nodup_cons] at hdn
  exact hdn.1 (List.mem_flatMap.2 ⟨k, hk, hi⟩)

end Root

/-- What the pass needs for a module with this body. -/
def bodyTodo (body : List Tree) : Todo := .root (Tree.catalogOf body) (Tree.functionNames body) body

/-- What the pass leaves of a module with this body, when it starts with `w`. -/
structure Ran (w : Workspace Progress) (i : NodeId) (ty : Option Ty) (body : List Tree) (w' : Workspace Progress)
    (body' : List Tree) : Prop where
  declarable : ∀ d ∈ body, d.Declarable
  rooted : Rooted (Tree.catalogOf body) w.store.nextId (Tree.functionNames body) body body'
  has : Has w' (Tree.catalogOf body) (bodyTodo body).stats [(none, .node i ty .module [] body' [])] []
    (w.store.outside (.node i ty .module [] body []))
  keeps : (bodyTodo body).clean → w'.store = w.store

/-- A run counts from zero, and walks the node if it is a module. -/
theorem ends_run {n : Node} {Q : Unit → Workspace Progress → Prop} {E : PassError → Workspace Progress → Prop}
    (hn : w.store.find? m = some n) :
    Ends (run m) w Q E ↔ if n.kind.isModule then
      Ends (visitor.walkNode m (walkBound w.store) m) { w with own := { w.own with stats := {} } }
      (fun _ => Q ()) E
    else E (.structural (.notAModule m)) { w with own := { w.own with stats := {} } } := by
  unfold run Lower.count
  rw [ends_bind, ends_modify, Lower.store_then]
  refine (Lower.node_then (by exact hn)).trans ?_
  split
  · rw [ends_bind]
    rfl
  · rfl

/-- **The pass over a module.** -/
theorem run_spec {i : NodeId} {ty : Option Ty} {body : List Tree} (hs : w.store.Sound)
    (hf : (Tree.node i ty .module [] body []).Fits) (hn : (Tree.node i ty .module [] body []).ids.Nodup)
    (hT : w.store.Holds none (.node i ty .module [] body [])) (hm : ∀ k ∈ body, k.All fun u => u.label ≠ .module) :
    Ends (run i) w (fun _ w' => ∃ body', Ran w i ty body w' body') fun e _ =>
      (¬ ∀ d ∈ body, d.Declarable) ∧ e.Undeclared ∨ (∀ d ∈ body, d.Declarable) ∧ (bodyTodo body).Refuses e := by
  have hbody := Tree.nodup_body hn
  have hbound : 2 * (bodyTodo body).size + 4 ≤ walkBound w.store := root_size_lt_walkBound hT hn
  have hstart := has_of_holds (w := { w with own := { w.own with stats := {} } }) hs hf hn hT
  rw [ends_run (m := i) hT.top, if_pos (by exact hf.isModule_kind.2 rfl)]
  generalize walkBound _ = fuel at hbound ⊢
  obtain ⟨fuel, rfl⟩ : ∃ k, fuel = k + 2 := ⟨fuel - 2, by omega⟩
  unfold Visitor.walkNode Visitor.settle
  rw [bind_assoc, ends_bind]
  refine (dispatch_spec (K := []) hstart).mono ?_ ?_
  · intro _ w₁ hv
    rw [bind_assoc, Lower.store_then]
    cases hv with
    | module _ hs₁ ho₁ hdecl =>
      have h₁ : Has w₁ (Tree.catalogOf body) {} [(none, .node i ty .module [] ([] ++ body) [])] []
          (w.store.outside (.node i ty .module [] body [])) := ⟨ho₁, hs₁ ▸ hstart.keeps⟩
      have hatt : w₁.store.isAttached i = true :=
        Store.isAttached_of_mem h₁.holds hf hn rfl (Tree.id_mem_ids _)
      rw [if_pos (by exact hatt)]
      have hwalk := walkRoot (fuel + 1) h₁ fun d hd => plainDecl_of_mem hbody hd (hm d hd)
      simp only [List.nil_append] at hwalk
      refine hwalk.mono ?_ fun e _ he => .inr ⟨hdecl, he (by rw [bodyTodo] at hbound; omega)⟩
      rintro _ w₂ ⟨body', hbody', h₂, hkeep⟩
      exact ⟨body', hdecl, hbody', by simpa [bodyTodo] using h₂, fun hc => (hkeep hc).symm ▸ hs₁⟩
    | left _ hl => exact absurd rfl hl
    | declared hl =>
      obtain ⟨_, _, _, hl⟩ := hl
      cases hl
    | rewritten _ hσ => cases hσ
  · rintro e w' ⟨-, hstuck⟩
    cases hstuck with
    | module _ hd he => exact .inl ⟨hd, he⟩
    | declaration hl =>
      obtain ⟨_, _, _, hl⟩ := hl
      cases hl
    | access hl => exact absurd rfl hl

theorem eq_module {T : Tree} (hf : T.Fits) (hl : T.label = .module) :
    T = .node T.id T.ty .module [] T.body [] := by
  obtain ⟨i, ty, l, hs, body, os⟩ := T
  obtain rfl : l = .module := hl
  obtain ⟨h1, h2⟩ := ((Tree.fits_iff _).1 hf).1
  obtain rfl : hs = [] := List.length_eq_zero_iff.1 h1
  obtain rfl : os = [] := List.length_eq_zero_iff.1 h2
  rfl

/-- What a run that comes to its end leaves. -/
theorem exists_ran {w' : Workspace Progress} {T : Tree} (hs : w.store.Sound) (hf : T.Fits) (hn : T.ids.Nodup)
    (hT : w.store.Holds none T) (hm : ∀ k ∈ T.kids, k.All fun u => u.label ≠ .module)
    (hrun : run T.id w = .ok () w') :
    ∃ ty body body', T = .node T.id ty .module [] body [] ∧ Ran w T.id ty body w' body' := by
  by_cases hl : T.label = .module
  · have heq := eq_module hf hl
    generalize T.id = i, T.ty = ty, T.body = body at heq hrun ⊢
    subst heq
    obtain ⟨body', h⟩ := (run_spec hs hf hn hT fun k hk => hm k (by simpa using hk)).of_ok hrun
    exact ⟨ty, body, body', rfl, h⟩
  · have hends : Ends (run T.id) w (fun _ _ => False) fun _ _ => True := by
      rw [ends_run hT.top, if_neg (by exact mt hf.isModule_kind.1 hl)]
      trivial
    exact (hends.of_ok hrun).elim

end Lowering

end ContractTree
