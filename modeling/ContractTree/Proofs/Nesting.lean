import ContractTree.Proofs.DocumentText

/-!
How deep what is read can be nested. Whatever text the reader is given, it gives no value that is nested deeper
than its limit (`Json.depth_of_parse?`), and a type is written no deeper than what it was read from
(`Ty.depth_of_ofJson?`). So no type in a document that was read is nested deeper than what the limit leaves for
types (`Document.depth_of_parse?`).
-/

namespace ContractTree

namespace Json

/-- What every step keeps holds at the end of a fold. -/
theorem foldlM_keeps {σ α : Type} {f : σ → α → Option σ} {P : σ → Prop} {l : List α}
    (hf : ∀ {s a s'}, a ∈ l → P s → f s a = some s' → P s') {s s' : σ} (hs : P s) (h : l.foldlM f s = some s') :
    P s' := by
  induction l generalizing s with
  | nil =>
    obtain rfl := Option.some.inj h
    exact hs
  | cons a l ih =>
    rw [List.foldlM_cons] at h
    obtain ⟨s₁, hs₁, h⟩ := Option.bind_eq_some_iff.1 h
    exact ih (fun ha => hf (List.mem_cons_of_mem _ ha)) (hf List.mem_cons_self hs hs₁) h

theorem exists_of_mem_mapM {α β : Type} {f : α → Option β} {l : List α} {l' : List β} (h : l.mapM f = some l') :
    ∀ b ∈ l', ∃ a ∈ l, f a = some b := by
  induction l generalizing l' with
  | nil =>
    obtain rfl : [] = l' := Option.some.inj h
    simp
  | cons a l ih =>
    rw [List.mapM_cons] at h
    obtain ⟨b, hb, h⟩ := Option.bind_eq_some_iff.1 h
    obtain ⟨bs, hbs, h⟩ := Option.bind_eq_some_iff.1 h
    obtain rfl : b :: bs = l' := Option.some.inj h
    refine List.forall_mem_cons.2 ⟨⟨a, List.mem_cons_self, hb⟩, fun b' hb' => ?_⟩
    obtain ⟨a', ha', hf⟩ := ih hbs b' hb'
    exact ⟨a', List.mem_cons_of_mem _ ha', hf⟩

/-! ## Tokens -/

/-- What a literal or a numeral stands for has no parts. -/
def Token.Flat : Token → Prop
  | .scalar j => j.depth = 0
  | _ => True

theorem depth_of_word? {cs : List Char} {j : Json} (h : word? cs = some j) : j.depth = 0 := by
  unfold word? at h
  split_ifs at h
  · cases h
    rfl
  · cases h
    rfl
  · cases h
    rfl
  · unfold numeral? at h
    dsimp only at h
    split_ifs at h <;> cases h <;> rfl

theorem flat_of_start {done : List Token} {c : Char} {s : LexState} (hd : ∀ t ∈ done, t.Flat)
    (h : LexState.start done c = some s) : ∀ t ∈ s.done, t.Flat := by
  unfold LexState.start at h
  split_ifs at h
  · cases h
    exact hd
  · cases h
    exact hd
  · cases h
    exact hd
  · obtain ⟨t, ht, rfl⟩ := Option.map_eq_some_iff.1 h
    refine List.forall_mem_cons.2 ⟨?_, hd⟩
    unfold punctuation? at ht
    split_ifs at ht <;> cases ht <;> trivial

theorem flat_of_lexed {s s' : LexState} {c : Char} (hs : ∀ t ∈ s.done, t.Flat) (h : s.step c = some s') :
    ∀ t ∈ s'.done, t.Flat := by
  unfold LexState.step at h
  split at h
  · exact flat_of_start hs h
  · split_ifs at h
    · cases h
      exact hs
    · obtain ⟨j, hj, h⟩ := Option.bind_eq_some_iff.1 h
      have hscalar : (Token.scalar j).Flat := depth_of_word? hj
      exact flat_of_start (List.forall_mem_cons.2 ⟨hscalar, hs⟩) h
  · split_ifs at h <;> cases h
    · exact List.forall_mem_cons.2 ⟨trivial, hs⟩
    · exact hs
    · exact hs
  · split_ifs at h
    · cases h
      exact hs
    · obtain ⟨e, -, rfl⟩ := Option.map_eq_some_iff.1 h
      exact hs
  · obtain ⟨d, -, rfl⟩ := Option.map_eq_some_iff.1 h
    split_ifs <;> exact hs

theorem flat_of_tokens? {cs : List Char} {ts : List Token} (h : tokens? cs = some ts) : ∀ t ∈ ts, t.Flat := by
  obtain ⟨s, hs, h⟩ := Option.bind_eq_some_iff.1 h
  have hdone : ∀ t ∈ s.done, t.Flat := foldlM_keeps (fun _ => flat_of_lexed) (by simp) hs
  unfold LexState.finish at h
  split at h
  · cases h
    simpa using hdone
  · obtain ⟨j, hj, rfl⟩ := Option.map_eq_some_iff.1 h
    have hscalar : (Token.scalar j).Flat := depth_of_word? hj
    intro t ht
    rcases List.mem_cons.1 (List.mem_reverse.1 ht) with rfl | ht
    · exact hscalar
    · exact hdone t ht
  · cases h

/-! ## Values -/

/-- What stands in a container below `outer` others is not nested deeper than the rest of the limit. -/
def Below (limit outer : Nat) (js : List Json) : Prop := ∀ j ∈ js, j.depth ≤ limit - (outer + 1)

/-- No finished part of an open container is nested too deep. -/
def Frame.Within (limit : Nat) : List Frame → Prop
  | [] => True
  | .items done :: frames => Below limit frames.length done ∧ Within limit frames
  | .fields done _ :: frames => Below limit frames.length (done.map Prod.snd) ∧ Within limit frames

/-- No finished part of what is being read is nested too deep. -/
def ReadState.Within (limit : Nat) (s : ReadState) : Prop :=
  Frame.Within limit s.frames ∧
    match s.expect with
    | .nextKey done | .colon done _ => Below limit s.frames.length (done.map Prod.snd)
    | .after j => j.depth ≤ limit - s.frames.length
    | _ => True

variable {limit : Nat} {frames : List Frame}

/-- A container is complete. -/
theorem within_close {js : List Json} {j : Json} (hf : Frame.Within limit frames)
    (hjs : Below limit frames.length js) (hj : ∀ n, (∀ i ∈ js, i.depth ≤ n) → j.depth ≤ n + 1) :
    (ReadState.close limit frames j).Within limit := by
  refine ⟨hf, ?_⟩
  rw [close_eq]
  show (if 0 < limit - frames.length then j else .unreadable).depth ≤ limit - frames.length
  split_ifs with hlt
  · have := hj _ hjs
    omega
  · exact Nat.zero_le _

theorem depth_objectOf (rev : List (Option String × Json)) (n : Nat) (h : ∀ j ∈ rev.map Prod.snd, j.depth ≤ n) :
    (objectOf rev).depth ≤ n + 1 := by
  unfold objectOf
  split
  · next fields hfields =>
    refine Nat.succ_le_succ (fieldsDepth_le_iff.2 fun f hf => ?_)
    obtain ⟨g, hg, hfg⟩ := exists_of_mem_mapM hfields f hf
    obtain ⟨key, -, rfl⟩ := Option.map_eq_some_iff.1 hfg
    exact h g.2 (List.mem_map_of_mem (List.mem_reverse.1 hg))
  · exact Nat.zero_le _

theorem within_startValue {t : Token} {s : ReadState} (hf : Frame.Within limit frames) (ht : t.Flat)
    (h : ReadState.startValue frames t = some s) : s.Within limit := by
  cases t <;> simp only [ReadState.startValue, reduceCtorEq, Option.some.injEq] at h
  case lbrace =>
    subst h
    exact ⟨hf, trivial⟩
  case lbracket =>
    subst h
    exact ⟨⟨by simp [Below], hf⟩, trivial⟩
  case scalar j =>
    subst h
    exact ⟨hf, Nat.le_trans (Nat.le_of_eq ht) (Nat.zero_le _)⟩
  case text t =>
    cases t <;> cases h <;> exact ⟨hf, Nat.zero_le _⟩

theorem Frame.Within.tail (h : Frame.Within limit frames) : Frame.Within limit frames.tail := by
  match frames, h with
  | [], h => exact h
  | .items _ :: _, h => exact h.2
  | .fields _ _ :: _, h => exact h.2

theorem within_afterValue {j : Json} {t : Token} {s : ReadState} (hf : Frame.Within limit frames)
    (hj : j.depth ≤ limit - frames.length) (h : ReadState.afterValue limit j frames t = some s) :
    s.Within limit := by
  unfold ReadState.afterValue at h
  split at h
  · cases h
    exact ⟨⟨List.forall_mem_cons.2 ⟨hj, hf.1⟩, hf.2⟩, trivial⟩
  · next done rest =>
    cases h
    have hall : Below limit rest.length (j :: done) := List.forall_mem_cons.2 ⟨hj, hf.1⟩
    exact within_close hf.2 hall fun n hn => Nat.succ_le_succ (itemsDepth_le_iff.2
      fun i hi => hn i (List.mem_reverse.1 hi))
  · cases h
    exact ⟨hf.2, List.forall_mem_cons.2 ⟨hj, hf.1⟩⟩
  · next done key rest =>
    cases h
    have hall : Below limit rest.length (((key, j) :: done).map Prod.snd) := List.forall_mem_cons.2 ⟨hj, hf.1⟩
    exact within_close hf.2 hall (depth_objectOf _)
  · cases h

theorem within_step {s s' : ReadState} {t : Token} (hs : s.Within limit) (ht : t.Flat)
    (h : s.step limit t = some s') : s'.Within limit := by
  obtain ⟨expect, frames⟩ := s
  obtain ⟨hf, he⟩ := hs
  have hnil : ∀ outer, Below limit outer [] := by simp [Below]
  cases expect with
  | value => exact within_startValue hf ht h
  | firstItem =>
    cases t with
    | rbracket =>
      cases h
      exact within_close hf.tail (hnil _) fun _ _ => Nat.succ_le_succ (Nat.zero_le _)
    | _ => exact within_startValue hf ht h
  | firstKey =>
    cases t with
    | rbrace =>
      cases h
      exact within_close hf (hnil _) fun _ _ => Nat.succ_le_succ (Nat.zero_le _)
    | text key =>
      cases h
      exact ⟨hf, hnil _⟩
    | _ => cases h
  | nextKey done =>
    cases t with
    | text key =>
      cases h
      exact ⟨hf, he⟩
    | _ => cases h
  | colon done key =>
    cases t with
    | colon =>
      cases h
      exact ⟨⟨he, hf⟩, trivial⟩
    | _ => cases h
  | after j => exact within_afterValue hf he h

/-- No value that is read is nested deeper than the limit. -/
theorem depth_of_parse? {text : String} {j : Json} (h : parse? limit text = some j) : j.depth ≤ limit := by
  obtain ⟨ts, hts, h⟩ := Option.bind_eq_some_iff.1 h
  obtain ⟨s, hs, h⟩ := Option.bind_eq_some_iff.1 h
  have hflat := flat_of_tokens? hts
  have hstart : ReadState.Within limit ⟨.value, []⟩ := ⟨trivial, trivial⟩
  obtain ⟨-, hwithin⟩ := foldlM_keeps (P := ReadState.Within limit) (fun ht hs => within_step hs (hflat _ ht))
    hstart hs
  obtain ⟨expect, frames⟩ := s
  unfold ReadState.finish at h
  split at h
  · next hexpect hframes =>
    cases h
    dsimp only at hexpect hframes
    subst hexpect hframes
    exact hwithin
  · cases h

end Json

namespace Ty

/-! ## Types -/

variable {p : Bool} {t : Ty} {name : String} {n : Nat}

theorem depth_of_ofName? (h : ofName? name = some t) : t.toJson.depth = 0 := by
  unfold ofName? at h
  split_ifs at h <;> cases h <;> rfl

theorem depth_of_ofWidth? (h : ofWidth? name n = some t) : t.toJson.depth = 1 := by
  unfold ofWidth? at h
  split_ifs at h <;> cases h <;> rfl

theorem depth_dynArray (item : Ty) (bound : UInt64) :
    (dynArray item bound).toJson.depth = item.toJson.depth + 2 := by
  simp [toJson, Json.depth, Json.fieldsDepth, Json.itemsDepth]

theorem depth_mapping (key value : Ty) :
    (mapping key value).toJson.depth = max key.toJson.depth value.toJson.depth + 2 := by
  simp [toJson, Json.depth, Json.fieldsDepth, Json.itemsDepth]

theorem depth_storage (keys : List Ty) (value : Ty) : (storage keys value).toJson.depth =
    max (Json.itemsDepth (toJsonList keys) + 1) value.toJson.depth + 2 := by
  simp [toJson, Json.depth, Json.fieldsDepth]

theorem depth_function (params : List Ty) (returns : Option Ty) (visibility : Visibility)
    (mutability : Mutability) : (function params returns visibility mutability).toJson.depth =
      max (Json.itemsDepth (toJsonList params) + 1) (toJsonOption returns).depth + 2 := by
  simp [toJson, Json.depth, Json.fieldsDepth, Visibility.toJson, Mutability.toJson]

/-- The parts of a slot type that are read so far are no deeper than `n`. -/
structure SlotParts.Within (n : Nat) (q : SlotParts) : Prop where
  keys : ∀ keys ∈ q.keys, Json.itemsDepth (toJsonList keys) + 1 ≤ n
  value : ∀ value ∈ q.value, value.toJson.depth ≤ n

/-- The parts of a function type that are read so far are no deeper than `n`. -/
structure FunctionParts.Within (n : Nat) (q : FunctionParts) : Prop where
  params : ∀ params ∈ q.params, Json.itemsDepth (toJsonList params) + 1 ≤ n
  returns : ∀ returns ∈ q.returns, (toJsonOption returns).depth ≤ n

theorem SlotParts.Within.depth_of_ty? {q : SlotParts} (hq : q.Within n) (h : q.ty? = some t) :
    t.toJson.depth ≤ n + 2 := by
  obtain ⟨keys, hkeys, h⟩ := Option.bind_eq_some_iff.1 h
  obtain ⟨value, hvalue, h⟩ := Option.bind_eq_some_iff.1 h
  obtain rfl := Option.some.inj h
  have := hq.keys keys hkeys
  have := hq.value value hvalue
  rw [depth_storage]
  omega

theorem FunctionParts.Within.depth_of_ty? {q : FunctionParts} (hq : q.Within n) (h : q.ty? = some t) :
    t.toJson.depth ≤ n + 2 := by
  obtain ⟨params, hparams, h⟩ := Option.bind_eq_some_iff.1 h
  obtain ⟨visibility, -, h⟩ := Option.bind_eq_some_iff.1 h
  obtain ⟨mutability, -, h⟩ := Option.bind_eq_some_iff.1 h
  obtain rfl := Option.some.inj h
  have := hq.params params hparams
  have hreturns : (toJsonOption (q.returns.getD none)).depth ≤ n := by
    cases hr : q.returns with
    | none => exact Nat.zero_le _
    | some returns => exact hq.returns returns hr
  rw [depth_function]
  omega

theorem depth_of_ofJsonOption? {j : Json} {r : Option Ty}
    (hj : ∀ {t}, ofJson? p j = some t → t.toJson.depth ≤ j.depth) (h : ofJsonOption? p j = some r) :
    (toJsonOption r).depth ≤ j.depth := by
  by_cases hnull : j = .null
  · subst hnull
    rw [ofJsonOption?] at h
    obtain rfl := Option.some.inj h
    exact Nat.zero_le _
  · rw [ofJsonOption?_of_ne_null hnull] at h
    obtain ⟨t, ht, rfl⟩ := Option.map_eq_some_iff.1 h
    exact hj ht

mutual

/-- A type is written no deeper than what it was read from. -/
theorem depth_of_ofJson? (j : Json) {t : Ty} (h : ofJson? p j = some t) : t.toJson.depth ≤ j.depth := by
  match j with
  | .str name =>
    rw [ofJson?] at h
    exact Nat.le_of_eq (depth_of_ofName? h)
  | .obj [(name, payload)] =>
    rw [ofJson?] at h
    have := depth_of_ofVariant? payload h
    simpa [Json.depth, Json.fieldsDepth] using this
  | .null | .bool _ | .nat _ | .real _ | .arr _ | .unreadable | .obj [] | .obj (_ :: _ :: _) => simp [ofJson?] at h

theorem depth_of_ofVariant? (payload : Json) {name : String} {t : Ty} (h : ofVariant? p name payload = some t) :
    t.toJson.depth ≤ payload.depth + 1 := by
  match payload with
  | .null =>
    rw [ofVariant?] at h
    rw [depth_of_ofName? h]
    exact Nat.zero_le _
  | .nat n =>
    rw [ofVariant?] at h
    exact Nat.le_of_eq (depth_of_ofWidth? h)
  | .arr [a, b] =>
    rw [ofVariant?] at h
    have hdepth : (Json.arr [a, b]).depth = max a.depth b.depth + 1 := by simp [Json.depth, Json.itemsDepth]
    rw [hdepth]
    split_ifs at h
    · obtain ⟨item, hitem, h⟩ := Option.bind_eq_some_iff.1 h
      obtain ⟨bound, -, h⟩ := Option.bind_eq_some_iff.1 h
      obtain rfl := Option.some.inj h
      have := depth_of_ofJson? a hitem
      rw [depth_dynArray]
      omega
    · obtain ⟨key, hkey, h⟩ := Option.bind_eq_some_iff.1 h
      obtain ⟨value, hvalue, h⟩ := Option.bind_eq_some_iff.1 h
      obtain rfl := Option.some.inj h
      have := depth_of_ofJson? a hkey
      have := depth_of_ofJson? b hvalue
      rw [depth_mapping]
      omega
    · obtain ⟨keys, hkeys, h⟩ := Option.bind_eq_some_iff.1 h
      obtain ⟨value, hvalue, h⟩ := Option.bind_eq_some_iff.1 h
      obtain rfl := Option.some.inj h
      have := depth_of_ofJsonArray? a hkeys
      have := depth_of_ofJson? b hvalue
      rw [depth_storage]
      omega
  | .arr [params, returns, visibility, mutability] =>
    rw [ofVariant?] at h
    split_ifs at h
    obtain ⟨ps, hps, h⟩ := Option.bind_eq_some_iff.1 h
    obtain ⟨r, hr, h⟩ := Option.bind_eq_some_iff.1 h
    obtain ⟨v, -, h⟩ := Option.bind_eq_some_iff.1 h
    obtain ⟨m, -, h⟩ := Option.bind_eq_some_iff.1 h
    obtain rfl := Option.some.inj h
    have := depth_of_ofJsonArray? params hps
    have := depth_of_ofJsonOption? (fun ht => depth_of_ofJson? returns ht) hr
    rw [depth_function]
    simp only [Json.depth, Json.itemsDepth]
    omega
  | .obj fields =>
    rw [ofVariant?] at h
    have hfields : ∀ f ∈ fields, f.2.depth ≤ Json.fieldsDepth fields := Json.fieldsDepth_le_iff.1 (Nat.le_refl _)
    split_ifs at h
    · obtain ⟨q, hq, h⟩ := Option.bind_eq_some_iff.1 h
      exact (within_of_slotParts? fields hfields ⟨by simp, by simp⟩ hq).depth_of_ty? h
    · obtain ⟨q, hq, h⟩ := Option.bind_eq_some_iff.1 h
      exact (within_of_functionParts? fields hfields ⟨by simp, by simp⟩ hq).depth_of_ty? h
  | .bool _ | .real _ | .str _ | .unreadable | .arr [] | .arr [_] | .arr [_, _, _] | .arr
      (_ :: _ :: _ :: _ :: _ :: _) =>
    simp [ofVariant?] at h

theorem depth_of_ofJsonArray? (j : Json) {ts : List Ty} (h : ofJsonArray? p j = some ts) :
    Json.itemsDepth (toJsonList ts) + 1 ≤ j.depth := by
  match j with
  | .arr items =>
    rw [ofJsonArray?] at h
    exact Nat.succ_le_succ (depth_of_ofJsonList? items h)
  | .null | .bool _ | .nat _ | .real _ | .str _ | .obj _ | .unreadable => simp [ofJsonArray?] at h

theorem depth_of_ofJsonList? (js : List Json) {ts : List Ty} (h : ofJsonList? p js = some ts) :
    Json.itemsDepth (toJsonList ts) ≤ Json.itemsDepth js := by
  match js with
  | [] =>
    rw [ofJsonList?] at h
    obtain rfl := Option.some.inj h
    exact Nat.le_refl _
  | j :: js =>
    rw [ofJsonList?] at h
    obtain ⟨t, ht, h⟩ := Option.bind_eq_some_iff.1 h
    obtain ⟨ts, hts, h⟩ := Option.bind_eq_some_iff.1 h
    obtain rfl := Option.some.inj h
    have := depth_of_ofJson? j ht
    have := depth_of_ofJsonList? js hts
    simp only [toJsonList, Json.itemsDepth]
    omega

theorem within_of_slotParts? {n : Nat} (fields : List (String × Json)) (hfields : ∀ f ∈ fields, f.2.depth ≤ n)
    {q q' : SlotParts} (hq : q.Within n) (h : slotParts? p q fields = some q') : q'.Within n := by
  match fields with
  | [] =>
    rw [slotParts?] at h
    obtain rfl := Option.some.inj h
    exact hq
  | (name, j) :: rest =>
    rw [List.forall_mem_cons] at hfields
    rw [slotParts?] at h
    split_ifs at h
    · obtain ⟨keys, hkeys, h⟩ := Option.bind_eq_some_iff.1 h
      have hq' : SlotParts.Within n { q with keys := some keys } := by
        refine ⟨fun keys' hk => ?_, hq.value⟩
        obtain rfl := Option.some.inj hk
        exact Nat.le_trans (depth_of_ofJsonArray? j hkeys) hfields.1
      exact within_of_slotParts? rest hfields.2 hq' h
    · obtain ⟨value, hvalue, h⟩ := Option.bind_eq_some_iff.1 h
      have hq' : SlotParts.Within n { q with value := some value } := by
        refine ⟨hq.keys, fun value' hv => ?_⟩
        obtain rfl := Option.some.inj hv
        exact Nat.le_trans (depth_of_ofJson? j hvalue) hfields.1
      exact within_of_slotParts? rest hfields.2 hq' h
    · exact within_of_slotParts? rest hfields.2 hq h

theorem within_of_functionParts? {n : Nat} (fields : List (String × Json)) (hfields : ∀ f ∈ fields, f.2.depth ≤ n)
    {q q' : FunctionParts} (hq : q.Within n) (h : functionParts? p q fields = some q') : q'.Within n := by
  match fields with
  | [] =>
    rw [functionParts?] at h
    obtain rfl := Option.some.inj h
    exact hq
  | (name, j) :: rest =>
    rw [List.forall_mem_cons] at hfields
    rw [functionParts?] at h
    split_ifs at h
    · obtain ⟨params, hparams, h⟩ := Option.bind_eq_some_iff.1 h
      have hq' : FunctionParts.Within n { q with params := some params } := by
        refine ⟨fun params' hp => ?_, hq.returns⟩
        obtain rfl := Option.some.inj hp
        exact Nat.le_trans (depth_of_ofJsonArray? j hparams) hfields.1
      exact within_of_functionParts? rest hfields.2 hq' h
    · obtain ⟨returns, hreturns, h⟩ := Option.bind_eq_some_iff.1 h
      have hq' : FunctionParts.Within n { q with returns := some returns } := by
        refine ⟨hq.params, fun returns' hr => ?_⟩
        obtain rfl := Option.some.inj hr
        exact Nat.le_trans (depth_of_ofJsonOption? (fun ht => depth_of_ofJson? j ht) hreturns) hfields.1
      exact within_of_functionParts? rest hfields.2 hq' h
    · obtain ⟨v, -, h⟩ := Option.bind_eq_some_iff.1 h
      have hq' : FunctionParts.Within n { q with visibility := some v } := ⟨hq.params, hq.returns⟩
      exact within_of_functionParts? rest hfields.2 hq' h
    · obtain ⟨m, -, h⟩ := Option.bind_eq_some_iff.1 h
      have hq' : FunctionParts.Within n { q with mutability := some m } := ⟨hq.params, hq.returns⟩
      exact within_of_functionParts? rest hfields.2 hq' h
    · exact within_of_functionParts? rest hfields.2 hq h

end

end Ty

/-! ## Documents -/

theorem Json.depth_of_field {fields : List (String × Json)} {name : String} {j : Json}
    (h : Json.field fields name = some (some j)) : j.depth + 1 ≤ (Json.obj fields).depth := by
  have hmem : ∃ f ∈ fields, f.2 = j := by
    unfold Json.field at h
    split at h
    · cases h
    · next x j' hf =>
      cases h
      have hx : (x, j) ∈ fields.filter (·.1 = name) := by
        rw [hf]
        exact List.mem_cons_self
      exact ⟨(x, j), (List.mem_filter.1 hx).1, rfl⟩
    · cases h
  obtain ⟨f, hf, rfl⟩ := hmem
  exact Nat.succ_le_succ (Json.fieldsDepth_le_iff.1 (Nat.le_refl _) f hf)

/-- A part of a record is nested less deep. -/
theorem Json.depth_of_record {names : List String} {j : Json} {parts : List (Option Json)}
    (h : j.record names = some parts) : ∀ part, some part ∈ parts → part.depth + 1 ≤ j.depth := by
  intro part hpart
  match j with
  | .obj fields =>
    obtain ⟨name, -, hname⟩ := Json.exists_of_mem_mapM h _ hpart
    exact Json.depth_of_field hname
  | .arr items =>
    rw [Json.record] at h
    split_ifs at h
    cases h
    have hmem : part ∈ items := by
      rcases List.mem_append.1 hpart with hpart | hpart
      · simpa using hpart
      · exact absurd (List.eq_of_mem_replicate hpart) (by simp)
    exact Nat.succ_le_succ (Json.itemsDepth_le_iff.1 (Nat.le_refl _) part hmem)
  | .null | .bool _ | .nat _ | .real _ | .str _ | .unreadable => cases h

theorem Node.depth_of_ofJson? {p : Bool} {j : Json} {n : Node} (h : Node.ofJson? p j = some n) :
    ∀ ty ∈ n.ty, ty.toJson.depth + 1 ≤ j.depth := by
  match j with
  | .obj fields =>
    rw [Node.ofJson?] at h
    obtain ⟨id, -, h⟩ := Option.bind_eq_some_iff.1 h
    obtain ⟨parent, -, h⟩ := Option.bind_eq_some_iff.1 h
    obtain ⟨ty, hty, h⟩ := Option.bind_eq_some_iff.1 h
    obtain ⟨part, hpart, hty⟩ := Option.bind_eq_some_iff.1 hty
    have hn : n.ty = ty := by
      dsimp only at h
      split_ifs at h
      obtain ⟨tag, -, h⟩ := Option.bind_eq_some_iff.1 h
      obtain ⟨kind, -, h⟩ := Option.bind_eq_some_iff.1 h
      cases h
      rfl
    rintro t ht
    rw [hn] at ht
    subst ht
    unfold Json.optional? at hty
    split at hty
    · cases hty
    · cases hty
    · next j _ =>
      obtain ⟨t', ht, he⟩ := Option.map_eq_some_iff.1 hty
      obtain rfl := Option.some.inj he
      exact Nat.le_trans (Nat.succ_le_succ (Ty.depth_of_ofJson? j ht)) (Json.depth_of_field hpart)
  | .null | .bool _ | .nat _ | .real _ | .str _ | .arr _ | .unreadable => cases h

theorem Document.depth_of_ofJson? {j : Json} {d : Document} (h : Document.ofJson? j = some d) :
    ∀ n ∈ d.nodes, ∀ ty ∈ n.ty, ty.toJson.depth + 3 ≤ j.depth := by
  obtain ⟨parts, hparts, h⟩ := Option.bind_eq_some_iff.1 h
  split at h
  · next root nextId nodes =>
    obtain ⟨_, -, h⟩ := Option.bind_eq_some_iff.1 h
    obtain ⟨_, -, h⟩ := Option.bind_eq_some_iff.1 h
    obtain ⟨list, hlist, h⟩ := Option.bind_eq_some_iff.1 h
    cases h
    obtain ⟨part, rfl, hlist⟩ := Option.bind_eq_some_iff.1 hlist
    have hpart := Json.depth_of_record hparts part (by simp)
    intro n hn ty hty
    match part with
    | .arr items =>
      obtain ⟨item, hitem, hread⟩ := Json.exists_of_mem_mapM hlist n hn
      have hdepth := Node.depth_of_ofJson? hread ty hty
      have hitems : item.depth + 1 ≤ (Json.arr items).depth :=
        Nat.succ_le_succ (Json.itemsDepth_le_iff.1 (Nat.le_refl _) item hitem)
      omega
    | .null | .bool _ | .nat _ | .real _ | .str _ | .obj _ | .unreadable => cases hlist
  · cases h

/-- No type in a document that was read is nested too deep to be read again. -/
theorem Document.depth_of_parse? {text : String} {d : Document} (h : Document.parse? text = some d) :
    ∀ n ∈ d.nodes, ∀ ty ∈ n.ty, ty.toJson.depth ≤ 124 := by
  obtain ⟨j, hj, h⟩ := Option.bind_eq_some_iff.1 h
  intro n hn ty hty
  have hlimit : j.depth ≤ 127 := Json.depth_of_parse? hj
  have := Document.depth_of_ofJson? h n hn ty hty
  omega

end ContractTree
