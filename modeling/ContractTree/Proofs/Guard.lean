import ContractTree.Lowering.Catalog
import ContractTree.Proofs.Calls
import ContractTree.Proofs.Husk

/-!
Guards. While the pass works on an access, the store holds the tree of the module and loose trees beside it, and
between two calls of primitive edits anything may be loose. A `Guard` watches a property of all these trees that no
step of the pass breaks, and the nodes that no step may touch; `Store.Bears` says that a store keeps a forest under
a guard. Each primitive edit is a step from one guarded forest to another (`Edit.Does`), as it is without the
guard.
-/

namespace ContractTree

open Edit (Primitive)

/-- Whether a node of this sort brings names into the program: a module or a declaration. The pass makes no such
node. -/
def Label.isScope : Label → Bool
  | .module | .variableDecl _ _ _ => true
  | _ => false

/-- What is watched over while trees are taken apart and put together. -/
structure Guard (c : Catalog) where
  /-- What is to be true of the trees, whichever is in which place. -/
  Safe : List Tree → Prop
  /-- The nodes that stay as they are. -/
  held : NodeId → Prop
  perm : ∀ {ts us : List Tree}, ts.Perm us → Safe ts → Safe us
  grow : ∀ {i : NodeId} {ty : Option Ty} {l : Label} {hs bs os us : List Tree}, l.isScope = false →
    Safe (hs ++ bs ++ os ++ us) → Safe (.node i ty l hs bs os :: us)
  swap : ∀ {K : Ctx} {t x : Tree} {us : List Tree}, ¬ held t.id → (∀ y, t.label ≠ .name y) →
    Safe (K.plug t :: x :: us) → Safe (K.plug x :: t :: us)
  fell : ∀ {t : Tree} {us : List Tree}, ¬ held t.id → Safe (t :: us) → Safe (t.kids ++ us)
  strip : ∀ {t : Tree} {v : StorageVar} {us : List Tree}, t.Fits → t.reach c = some v → Safe (t :: us) →
    Safe (t.links.map Link.key ++ us)
  emit : ∀ {K : Ctx} {x e : Tree} {us : List Tree}, (∃ i ∈ x.ids, ¬ held i) → (∃ f ∈ K, f.part ≠ .heads) →
    Safe (K.plug x :: e :: us) → Safe ((K.emit [e]).plug x :: us)
  retype : ∀ {K : Ctx} {t : Tree} {ty : Option Ty} {us : List Tree}, ¬ held t.id → Safe (K.plug t :: us) →
    Safe (K.plug (t.withTy ty) :: us)
  append : ∀ {i : NodeId} {ty : Option Ty} {body us : List Tree} {u : Tree},
    Safe (.node i ty .module [] body [] :: u :: us) → Safe (.node i ty .module [] (body ++ [u]) [] :: us)
  /-- Nodes that are held are there. -/
  known : ∀ {ts : List Tree} {i : NodeId}, Safe ts → held i → i ∈ ts.flatMap Tree.ids
  /-- What refers to storage and has no statements below it is not held. -/
  dirty : ∀ {ts : List Tree} {C : Ctx} {t : Tree}, Safe ts → (ts.flatMap Tree.ids).Nodup → C.plug t ∈ ts →
    ¬ t.Clean c → t.body = [] → t.orelse = [] → ¬ held t.id
  /-- Nor is a declaration that the catalog lists, or what it declares. -/
  declared : ∀ {ts : List Tree} {C : Ctx} {t : Tree} {v : StorageVar}, Safe ts → (ts.flatMap Tree.ids).Nodup →
    C.plug t ∈ ts → (∃ a b d, t.label = .variableDecl a b d) → c.declaredAt? t.id = some v →
    ¬ held t.id ∧ ∀ x ∈ t.heads.head?, ¬ held x.id

/-- The guard that watches over nothing. -/
def Guard.idle (c : Catalog) : Guard c where
  Safe _ := True
  held _ := False
  perm _ _ := trivial
  grow _ _ := trivial
  swap _ _ _ := trivial
  fell _ _ := trivial
  strip _ _ _ := trivial
  emit _ _ _ := trivial
  retype _ _ := trivial
  append _ := trivial
  known _ h := h.elim
  dirty _ _ _ _ _ _ h := h
  declared _ _ _ _ _ := ⟨id, fun _ _ h => h⟩

namespace Tree

variable {c : Catalog} {t : Tree} {v : StorageVar}

theorem label_of_reach (h : t.reach c = some v) : t.label = .subscript ∨ ∃ attr, t.label = .member attr := by
  by_contra hno
  rw [not_or, not_exists] at hno
  rw [reach, base_of_label hno.1, receiver?_of_label hno.2] at h
  cases h

/-- An access holds no statements. -/
theorem lists_of_reach (hf : t.Fits) (h : t.reach c = some v) : t.body = [] ∧ t.orelse = [] := by
  have htop := ((fits_iff t).1 hf).1
  rcases label_of_reach h with hl | ⟨attr, hl⟩ <;> rw [hl] at htop <;>
    exact ⟨List.eq_nil_of_length_eq_zero htop.2.1, List.eq_nil_of_length_eq_zero htop.2.2⟩

theorem not_clean_of_reach (h : t.reach c = some v) : ¬ t.Clean c := fun hc => by
  rw [hc.reach] at h
  cases h

end Tree

/-! ## Guarded forests -/

namespace Store

variable {c : Catalog} {g : Guard c} {s s' : Store} {F F' L : Forest} {H H' N : List Node} {G : Outside}
  {p : Option NodeId} {t u : Tree} {C K : Ctx} {i : NodeId}

/-- The store keeps the forest, the single nodes beside it lead up to no module, and the trees are safe. -/
structure Bears (s : Store) (g : Guard c) (F : Forest) (H : List Node)
    (G : Outside) : Prop extends s.Keeps F H G where
  sunk : ∀ n ∈ H, Sunk H n.id
  safe : g.Safe (F.map Prod.snd)

theorem Strung.sunk {X : List NodeId} {n : Node} (h : Strung X (n :: N)) (hsub : n :: N ⊆ H) (hn : Sunk H n.id) :
    ∀ m ∈ n :: N, Sunk H m.id := by
  induction N generalizing n with
  | nil => simpa using hn
  | cons k N ih =>
    obtain ⟨-, hpar, hrest⟩ := h
    have hk : Sunk H k.id := .under (hsub (by simp)) (hpar k rfl) hn
    exact List.forall_mem_cons.2 ⟨hn, ih hrest (fun m hm => hsub (List.mem_cons_of_mem _ hm)) hk⟩

namespace Bears

theorem flatMap_ids (h : s.Bears g F H G) : ((F.map Prod.snd).flatMap Tree.ids).Nodup := by
  rw [← Forest.ids_eq_flatMap]
  exact (List.nodup_append'.1 h.nodup).1

theorem perm (h : s.Bears g F H G) (hF : F.Perm F') (hH : H.Perm H') : s.Bears g F' H' G where
  toKeeps := h.toKeeps.perm hF hH
  sunk n hn := (h.sunk n (hH.mem_iff.2 hn)).mono hH.subset
  safe := g.perm (hF.map _) h.safe

open Classical in
/-- The order of the trees does not matter. -/
theorem reorder (h : s.Bears g F H G) (hF : ∀ x, F.count x = F'.count x) : s.Bears g F' H G :=
  h.perm (List.perm_iff_count.2 hF) (List.Perm.refl _)

/-- A node that is not in the forest is not held. -/
theorem not_held (h : s.Bears g F H G) (hi : i ∉ Forest.ids F) : ¬ g.held i := fun hheld =>
  hi (Forest.ids_eq_flatMap ▸ g.known h.safe hheld)

/-- What refers to storage and has no statements below it is not held. -/
theorem not_held_of_dirty (h : s.Bears g F H G) (ht : (p, C.plug t) ∈ F) (hc : ¬ t.Clean c) (hb : t.body = [])
    (ho : t.orelse = []) : ¬ g.held t.id :=
  g.dirty h.safe h.flatMap_ids (List.mem_map.2 ⟨_, ht, rfl⟩) hc hb ho

theorem not_held_of_reach {v : StorageVar} (h : s.Bears g F H G) (ht : (p, C.plug t) ∈ F)
    (hv : t.reach c = some v) : ¬ g.held t.id := by
  obtain ⟨hb, ho⟩ := Tree.lists_of_reach (Ctx.fits_of_plug (h.fits _ ht)) hv
  exact h.not_held_of_dirty ht (Tree.not_clean_of_reach hv) hb ho

theorem not_held_of_declared {v : StorageVar} (h : s.Bears g F H G) (ht : (p, C.plug t) ∈ F)
    (hl : ∃ a b d, t.label = .variableDecl a b d) (hv : c.declaredAt? t.id = some v) :
    ¬ g.held t.id ∧ ∀ x ∈ t.heads.head?, ¬ g.held x.id :=
  g.declared h.safe h.flatMap_ids (List.mem_map.2 ⟨_, ht, rfl⟩) hl hv

/-- A loose tree is seen as its top and the trees below it. -/
theorem felled (h : s.Bears g ((p, t) :: F) H G) (hm : t.label ≠ .module) (ht : ¬ g.held t.id) :
    s.Bears g (t.kids.map (some t.id, ·) ++ F) (t.root p :: H) G where
  toKeeps := h.toKeeps.felled hm
  sunk := List.forall_mem_cons.2 ⟨h.sunk_root hm, fun n hn => (h.sunk n hn).mono (List.subset_cons_self _ _)⟩
  safe := by
    have := g.fell ht h.safe
    simpa [Function.comp_def] using this

/-- An access is its keys and a string of single nodes. -/
theorem stripped {v : StorageVar} (h : s.Bears g ((p, t) :: F) H G) (hv : t.reach c = some v) :
    ∃ n N, s.Bears g (keyForest t.links ++ F) (n :: N ++ H) G ∧ n.id = t.id ∧ n.parent = p ∧
      ∀ X : List NodeId, (∀ l ∈ t.links, l.key.id ∈ X) → Strung X (n :: N) := by
  obtain ⟨n, N, hk, hid, hpar, hst⟩ := h.toKeeps.stripped hv
  have hm : t.label ≠ .module := by rcases Tree.label_of_reach hv with hl | ⟨attr, hl⟩ <;> simp [hl]
  have hroot : n = t.root p := by
    have htop := h.holds _ List.mem_cons_self
    exact Option.some.inj ((hk.husks n (by simp)).symm.trans (hid ▸ htop.top))
  have hn : Sunk (n :: N ++ H) n.id := by
    rw [hid]
    refine (h.sunk_root hm).mono fun m hm => ?_
    rcases List.mem_cons.1 hm with rfl | hm
    · simp [hroot]
    · simp [hm]
  refine ⟨n, N, ⟨hk, fun m hm => ?_, ?_⟩, hid, hpar, hst⟩
  · rcases List.mem_append.1 hm with hm | hm
    · exact (hst _ fun l hl => List.mem_map.2 ⟨l, hl, rfl⟩).sunk (List.subset_append_left _ _) hn m hm
    · exact (h.sunk m hm).mono (List.subset_append_right _ _)
  · have := g.strip (h.fits _ List.mem_cons_self) hv h.safe
    simpa using this

end Bears

end Store

/-! ## Primitive edits -/

namespace Edit

variable {α β : Type} {e : Edit α} {s : Store} {Q Q' : α → Store → Prop} {X X' : StructuralError → Prop}

/-- The edit is one primitive call, which leaves `Q` or is refused for a cause of `X`. -/
structure Does (e : Edit α) (s : Store) (Q : α → Store → Prop) (X : StructuralError → Prop) : Prop where
  ends : Ends e s Q (Refusal s X)
  call : ∃ p : Primitive, p.edits = true ∧ final e s = p.after s

theorem Does.of_run (p : Primitive) (hp : p.edits = true) (f : α → Option NodeId)
    (hrun : p.run = e >>= fun a => pure (f a)) (h : Ends e s Q (Refusal s X)) : Does e s Q X :=
  ⟨h, p, hp, by rw [Primitive.after, hrun, final_bind_pure]⟩

theorem Does.mono (h : Does e s Q X) (hQ : ∀ a s', Q a s' → Q' a s') (hX : ∀ cause, X cause → X' cause) :
    Does e s Q' X' :=
  ⟨h.ends.mono hQ fun _ _ he => ⟨he.1, hX _ he.2⟩, h.call⟩

theorem Does.congr {e' : Edit α} (h : Does e s Q X) (he : e' s = e s) : Does e' s Q X := by
  refine ⟨?_, ?_⟩
  · rw [Ends, he]
    exact h.ends
  · rw [final, he]
    exact h.call

/-- What is done may depend on the store. -/
theorem Does.of_get {f : Store → Edit α} (h : Does (f s) s Q X) : Does (get >>= f) s Q X := ⟨h.ends, h.call⟩

/-- A type that depends on the one that was there is set like any other. -/
theorem final_updateTy {i : NodeId} {f : Option Ty → Option Ty} (hs : s.Sound) :
    final (updateNode i fun n => { n with ty := f n.ty }) s = (Primitive.setTy i (f (s.ty? i))).after s := by
  rw [Primitive.after, Primitive.run, final_bind_pure]
  unfold setTy updateNode
  cases hn : s.find? i with
  | none =>
    have hnode : node i s = .error (.unknownNode i) s := by rw [node_apply, hn]
    rw [final_bind_of_error hnode, final_bind_of_error hnode]
  | some n =>
    have hnode : node i s = .ok n s := by rw [node_apply, hn]
    rw [final_bind_of_ok hnode, final_bind_of_ok hnode]
    show s.update i _ = s.update i _
    simp only [Store.update]
    congr 1
    refine List.map_congr_left fun m hm => ?_
    split
    · next hid =>
      obtain rfl : m = n := Option.some.inj ((Store.find?_of_mem hs.nodup hm).symm.trans (hid ▸ hn))
      simp [Store.ty?, hn]
    · rfl

variable {c : Catalog} {g : Guard c} {F L : Forest} {H N : List Node} {G : Outside} {p : Option NodeId}
  {T t u x : Tree} {C K : Ctx} {σ : Site} {i : NodeId}

/-- A new leaf. -/
theorem insertNew_does (h : s.Bears g F H G) (k : NodeId → Kind) (l : NodeId → Label) (ty : Option Ty)
    (hk : ∀ i, k i = (l i).kind [] [] []) (hl : ∀ i, (l i).Fits 0 0 0) (hd : ∀ i, (l i).isScope = false)
    (call : Primitive) (hcall : call.edits = true) (hrun : call.run = insertNew k ty >>= fun i => pure (some i)) :
    Does (insertNew k ty) s (fun i s' => s'.Bears g ((none, .leaf i ty (l i)) :: F) H G ∧
      s'.replacements = s.replacements ∧ s'.replacedBy? i = none ∧ ¬ g.held i ∧ G.next ≤ i)
        (· = .idsExhausted) := by
  refine .of_run call hcall some hrun ((insertNew_spec h.toKeeps k l ty hk hl).mono ?_ fun _ _ h => h)
  rintro i s' ⟨hs', hr, hi, hle⟩
  refine ⟨⟨hs', h.sunk, g.grow (hd i) h.safe⟩, hr, hi, h.not_held fun hmem => ?_, hle⟩
  have hnd := hs'.nodup
  rw [Forest.ids_cons, List.append_assoc, List.nodup_append'] at hnd
  exact hnd.2.2 (Tree.id_mem_ids _) (List.mem_append_left _ hmem)

/-- A new node over loose trees. -/
theorem alloc_does (h : s.Bears g (L ++ F) H G) (l : Label) (hs bs os : List Tree) (ty : Option Ty) {k : Kind}
    (hk : k = l.kind (hs.map Tree.id) (bs.map Tree.id) (os.map Tree.id)) (hL : L.map Prod.snd = hs ++ bs ++ os)
    (hfit : l.Fits hs.length bs.length os.length) (hd : l.isScope = false) :
    Does (alloc k ty) s (fun i s' => s'.Bears g ((none, .node i ty l hs bs os) :: F) H G ∧
      s'.replacements = s.replacements ∧ s'.replacedBy? i = none ∧ ¬ g.held i ∧ G.next ≤ i)
        (· = .idsExhausted) := by
  refine .of_run (.alloc k ty) rfl some rfl ((alloc_spec h.toKeeps l hs bs os ty hk hL hfit).mono ?_
    fun _ _ h => h)
  rintro i s' ⟨hs', hr, hi, hle⟩
  have hsafe := h.safe
  rw [List.map_append, hL] at hsafe
  refine ⟨⟨hs', h.sunk, g.grow hd hsafe⟩, hr, hi, h.not_held fun hmem => ?_, hle⟩
  have hnd := hs'.nodup
  rw [Forest.ids_cons, Tree.ids_eq, Tree.kids_node, ← hL, ← Forest.ids_eq_flatMap, List.cons_append,
    List.cons_append, List.nodup_cons] at hnd
  exact hnd.1 (List.mem_append_left _ (by simpa using hmem))

/-- A loose tree takes the place of a part of a tree. -/
theorem replace_does (h : s.Bears g ((none, C.plug t) :: (p, u) :: F) H G) {old new : NodeId} (hold : t.id = old)
    (hnew : u.id = new) (ht : ¬ g.held t.id) (hl : ∀ y, t.label ≠ .name y) :
    Does (replace old new) s (fun _ s' => s'.Bears g ((none, C.plug u) :: (none, t) :: F) H G ∧
      ∀ i, s'.replacedBy? i = if i = old then some new else s.replacedBy? i) fun _ => C = [] :=
  .of_run (.replace old new) rfl (fun _ => none) rfl ((replace_spec h.toKeeps hold hnew).mono
    (fun _ _ hs' => ⟨⟨hs'.1, h.sunk, g.swap ht hl h.safe⟩, hs'.2⟩) fun _ _ h => h)

/-- A statement goes to the site of a place. -/
theorem insertBefore_site_does (h : s.Bears g ((none, K.plug x) :: (p, u) :: F) H G) {stmt : NodeId}
    (hstmt : u.id = stmt) (hσ : K.site? i = some σ) (hi : i = x.id ∨ i ∉ (K.plug x).ids)
    (hx : ∃ j ∈ x.ids, ¬ g.held j) : Does (insertBefore stmt σ.stmt σ.block) s (fun _ s' => K.site? x.id = some σ ∧
      s'.Bears g ((none, (K.emit [u]).plug x) :: F) H G ∧ s'.replacements = s.replacements)
      fun cause => cause = .anchorNotFound σ.stmt σ.block ∧ K.site? x.id ≠ some σ := by
  have hK : ∃ f ∈ K, f.part ≠ .heads := by
    obtain ⟨I, b, O, rfl, hb, -⟩ := Ctx.site?_split hσ
    exact ⟨b, by simp, hb⟩
  exact .of_run (.insertBefore stmt σ.stmt σ.block) rfl (fun _ => none) rfl
    ((insertBefore_site h.toKeeps hstmt hσ hi).mono
    (fun _ _ hs' => ⟨hs'.1, ⟨hs'.2.1, h.sunk, g.emit hx hK h.safe⟩, hs'.2.2⟩) fun _ _ h => h)

/-- A statement goes in front of what is in a place, if that is a statement of the block. -/
theorem insertBefore_self_does (h : s.Bears g ((none, K.plug x) :: (p, u) :: F) H G) {stmt anchor block : NodeId}
    (hstmt : u.id = stmt) (hanchor : x.id = anchor) (hblock : (K.plug x).HasBlock block) (hx : ¬ g.held x.id) :
    Does (insertBefore stmt anchor block) s (fun _ s' => (∃ b O, K = b :: O ∧ b.part ≠ .heads ∧ b.id = block) ∧
      s'.Bears g ((none, (K.emit [u]).plug x) :: F) H G ∧ s'.replacements = s.replacements)
      fun cause => cause = .anchorNotFound anchor block ∧ ¬ ∃ b O, K = b :: O ∧ b.part ≠ .heads ∧
      b.id = block := by
  refine .of_run (.insertBefore stmt anchor block) rfl (fun _ => none) rfl
    ((insertBefore_self h.toKeeps hstmt hanchor hblock).mono ?_ fun _ _ h => h)
  rintro _ s' ⟨hK, hs', hr⟩
  have hlist : ∃ f ∈ K, f.part ≠ .heads := by
    obtain ⟨b, O, rfl, hb, -⟩ := hK
    exact ⟨b, by simp, hb⟩
  exact ⟨hK, ⟨hs', h.sunk, g.emit ⟨x.id, x.id_mem_ids, hx⟩ hlist h.safe⟩, hr⟩

/-- A loose tree is put at the end of a module. -/
theorem appendDeclaration_does (h : s.Bears g ((none, T) :: (p, u) :: F) H G) {module decl : NodeId}
    (hm : T.id = module) (hdecl : u.id = decl) :
    Does (appendDeclaration module decl) s (fun _ s' => ∃ (i : NodeId) (ty : Option Ty) (body : List Tree),
      T = .node i ty .module [] body [] ∧ s'.Bears g ((none, .node i ty .module [] (body ++ [u]) []) :: F) H G ∧
      s'.replacements = s.replacements) fun _ => T.label ≠ .module := by
  refine .of_run (.appendDeclaration module decl) rfl (fun _ => none) rfl
    ((appendDeclaration_spec h.toKeeps hm hdecl).mono ?_ fun _ _ h => h)
  rintro _ s' ⟨i, ty, body, hT, hs', hr⟩
  have hsafe := h.safe
  rw [hT] at hsafe
  exact ⟨i, ty, body, hT, ⟨hs', h.sunk, g.append hsafe⟩, hr⟩

/-- The type of a node is changed. -/
theorem updateTy_does (h : s.Bears g ((none, C.plug t) :: F) H G) (hi : t.id = i) (f : Option Ty → Option Ty)
    (ht : ¬ g.held t.id) :
    Does (updateNode i fun n => { n with ty := f n.ty }) s
      (fun _ s' => s'.Bears g ((none, C.plug (t.withTy (f t.ty))) :: F) H G ∧ s'.replacements = s.replacements)
      fun _ => False :=
  ⟨(updateTy_spec h.toKeeps hi f).mono (fun _ _ hs' => ⟨⟨hs'.1, h.sunk, g.retype ht h.safe⟩, hs'.2⟩)
    fun _ _ h => h, _, rfl, final_updateTy h.sound⟩

/-- A string of single nodes that has no parent is discarded. -/
theorem discard_does {n : Node} (h : s.Bears g ((none, T) :: F) (n :: N ++ H) G) (hi : n.id = i)
    (hp : n.parent = none) (hF : ∀ x ∈ F, x.1 = none) (hst : Store.Strung T.ids (n :: N))
    (hH : ∀ m ∈ H, Store.Sunk H m.id) :
    Does (discard i) s (fun _ s' => s'.Bears g ((none, T) :: F) H G ∧ s'.replacements = s.replacements ∧
      ∀ m ∈ n :: N, m.id ∉ s'.ids) fun _ => False :=
  .of_run (.discard i) rfl (fun _ => none) rfl ((discard_spec h.toKeeps hi hp hF hst).mono
    (fun _ _ hs' => ⟨⟨hs'.1, hH, h.safe⟩, hs'.2⟩) fun _ _ h => h)

end Edit

end ContractTree
