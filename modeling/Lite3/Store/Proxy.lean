import Lite3.Store.Nested

/-! # Assigning through proxies

An indexing expression follows places from the root and makes the containers
that are missing. Evaluated again after an assignment it comes to the same
place, which now holds the value assigned.
-/

namespace Lite3

open Bytes Config

/-- The label of a place in the chain of what is stored there. -/
def Place.link : Place → Option (List UInt8)
  | key k => some k
  | index _ => none

theorem Cell.has_of_itemAt {l : Cell} {p : Place} {it : Item} (h : l.itemAt p = some it) :
    l.Has it p.link := by
  cases p with
  | key k => exact h
  | index i => exact List.mem_of_getElem? h

namespace Value

/-- The call that makes the container the proxy stands for, where the lookup throws. -/
def makes (b : Buffer) (v : Value) (isArr : Bool) : Option Call :=
  if v.offset ≠ 0 then none
  else if v.key ≠ [] then
    match b.getContainer v.parentOfs v.key isArr with
    | .error (.exception _) => some (.create isArr v.parentOfs v.key)
    | _ => none
  else if v.isArrayElement then
    match b.arrGetContainer v.parentOfs v.index isArr with
    | .error (.exception _) => some (.appendNew isArr v.parentOfs)
    | _ => none
  else none

/-- The call of an assignment. -/
def assigns (v : Value) (x : Scalar) : Option Call :=
  if v.key ≠ [] then some (.set v.parentOfs v.key x)
  else if v.isArrayElement then some (.append v.parentOfs x)
  else none

/-- The call is legal, finds room and is routed, and an element is appended at its index. -/
def Allows (w : World) (v : Value) (call : Option Call) : Prop :=
  ∀ k ∈ call, k.Legal w ∧ k.Clear w ∧ k.Ok Buffer.Routed w ∧
    (v.isArrayElement = true → v.index = NodeView.size w.buf.mem v.parentOfs)

instance (w : World) (v : Value) : (call : Option Call) → Decidable (v.Allows w call)
  | none => .isTrue (by simp [Allows])
  | some k => decidable_of_iff (k.Legal w ∧ k.Clear w ∧ k.Ok Buffer.Routed w ∧
      (v.isArrayElement = true → v.index = NodeView.size w.buf.mem v.parentOfs)) (by simp [Allows])

/-- The conversion to the type of the value gives it; null and bytes are not assigned. -/
def Reads (b : Buffer) (v : Value) : Scalar → Prop
  | .bool x => v.toBool b = some x
  | .i64 x => v.toI64 b = some x
  | .f64 x => v.toF64 b = some x
  | .str x => v.toStr b = some x
  | .null | .bytes _ => True

instance (b : Buffer) (v : Value) : (x : Scalar) → Decidable (v.Reads b x)
  | .bool x => inferInstanceAs (Decidable (v.toBool b = some x))
  | .i64 x => inferInstanceAs (Decidable (v.toI64 b = some x))
  | .f64 x => inferInstanceAs (Decidable (v.toF64 b = some x))
  | .str x => inferInstanceAs (Decidable (v.toStr b = some x))
  | .null | .bytes _ => instDecidableTrue

end Value

/-- After `v = x` the same expression reads `x`, and an element that is there is replaced. -/
def AssignedReads (b : Buffer) (path : List Place) (x : Scalar) : Prop :=
  ∃ v b₁ v' b₂, path.foldl Value.indexed (some .root, b) = (some v, b₁) ∧
    path.foldl Value.indexed (some .root, v.assign b₁ x) = (some v', b₂) ∧ v'.Reads b₂ x ∧
    (v.isArrayElement = true → v.index < NodeView.size b₁.mem v.parentOfs →
      NodeView.size (v.assign b₁ x).mem v.parentOfs = NodeView.size b₁.mem v.parentOfs)

namespace World

/-- One more step of an expression, with the call that it makes. -/
def follow : Option Value × World → Place → Option Value × World
  | (none, w), _ => (none, w)
  | (some v, w), p => ((Value.indexed (some v, w.buf) p).1, w.run (v.makes w.buf p.isArr).toList)

/-- No key is empty, and containers are made where that is allowed. -/
def Passable (s : Option Value × World) (q : Place) : Prop :=
  q ≠ .key [] ∧ ∀ v ∈ s.1, v.Allows s.2 (v.makes s.2.buf q.isArr)

instance : (s : Option Value × World) → (q : Place) → Decidable (Passable s q)
  | (none, _), q => decidable_of_iff (q ≠ .key []) (by simp [Passable])
  | (some v, w), q => decidable_of_iff (q ≠ .key [] ∧ v.Allows w (v.makes w.buf q.isArr))
      (by simp [Passable])

/-- The assignment is allowed where the expression has come to. -/
def Assignable (s : Option Value × World) (x : Scalar) : Prop :=
  ∀ v ∈ s.1, v.Allows s.2 (v.assigns x)

instance : (s : Option Value × World) → (x : Scalar) → Decidable (Assignable s x)
  | (none, _), _ => .isTrue (by simp [Assignable])
  | (some v, w), x => decidable_of_iff (v.Allows w (v.assigns x)) (by simp [Assignable])

variable {w : World} {l l' d : Cell} {p q : Place} {path : List Place} {isArr : Bool}
  {ks : List Call} {k : Call}

/-- The expression comes to the place of the cell without making anything. -/
inductive Stands (w : World) : List Place → Cell → Place → Prop

  | root {l : Cell} {q : Place} : l ∈ w.cells → l.ofs = 0 → l.isArr = q.isArr → q ≠ .key [] →
    Stands w [q] l q

  | sub {path : List Place} {l d : Cell} {p q : Place} : Stands w path l p → d ∈ w.cells →
    l.itemAt p = some (.nested d.isArr d.ofs) → d.chain = (l.ofs, p.link) :: l.chain →
    d.isArr = q.isArr → q ≠ .key [] → Stands w (path ++ [q]) d q

theorem Stands.mem (h : Stands w path l p) : l ∈ w.cells := by cases h <;> assumption

theorem Stands.kind (h : Stands w path l p) : l.isArr = p.isArr := by cases h <;> assumption

theorem Stands.ne_nil (h : Stands w path l p) : p ≠ .key [] := by cases h <;> assumption

theorem Stands.mono {w' : World} (h : Stands w path l p)
    (hkeep : ∀ d ∈ w.cells, d.chain <:+ l.chain → d ∈ w'.cells) : Stands w' path l p := by
  induction h with
  | root hl ho hk hq => exact .root (hkeep _ hl (List.suffix_refl _)) ho hk hq
  | sub _ hd hi hc hk hq ih =>
    refine .sub (ih fun e he hs => hkeep e he ?_) (hkeep _ hd (List.suffix_refl _)) hi hc hk hq
    rw [hc]
    exact hs.trans (List.suffix_cons _ _)

theorem Stands.kept (hs : Stands w path l p) (hw : w.Sound) (hk : k.ofs = l.ofs)
    (hl' : l' ∈ (w.step k).cells) (ho : l'.ofs = l.ofs) (ha : l'.isArr = l.isArr)
    (hc : l'.chain = l.chain) : Stands (w.step k) path l' p := by
  cases hs with
  | root hl hl₀ hka hq => exact .root hl' (ho.trans hl₀) (ha.trans hka) hq
  | @sub path₀ l₀ _ p₀ _ hs₀ hl hi hch hka hq =>
    refine .sub (hs₀.mono fun d hd hsuf => step_kept hd (fun hd₀ => ?_) fun hu => ?_) hl'
      (by rw [ha, ho]; exact hi) (hc.trans hch) (ha.trans hka) hq
    · have hdl := hw.unique l hl d hd (hd₀.trans hk)
      have hlen := hsuf.length_le
      rw [hdl, hch, List.length_cons] at hlen
      omega
    · have hsub : ∀ key, d.Under k.ofs key → False := fun key hu =>
        hw.not_under_self hl key (by
          rw [Cell.Under, hch, ← hk]
          exact List.mem_cons_of_mem _ (hsuf.subset hu))
      cases k with
      | set _ key _ | create _ _ key => exact hsub key hu
      | append | appendNew => exact hu

end World

namespace Buffer

variable {b : Buffer} {o : ℕ}

theorem expect_kind {found : Option (Option (ValueType × ℕ))} (hf : found ≠ none) (type : ValueType)
    (missing mismatch : String) :
    (∃ p, found = some (some (type, p)) ∧ expect found type missing mismatch id = .ok p) ∨
      (∀ p, found ≠ some (some (type, p))) ∧
        ∃ e, expect found type missing mismatch id = .error (.exception e) := by
  rcases found with _ | _ | ⟨t, p⟩
  · exact absurd rfl hf
  · exact Or.inr ⟨by simp, _, rfl⟩
  · by_cases ht : t = type
    · exact Or.inl ⟨p, by rw [ht], if_pos ht⟩
    · exact Or.inr ⟨by simp [ht], _, if_neg ht⟩

theorem getContainer_eq (b : Buffer) (ofs : ℕ) (key : List UInt8) (isArr : Bool) :
    b.getContainer ofs key isArr =
      expect (b.lookup ofs key) (kindOf isArr) "Type mismatch" "Type mismatch" id := by
  cases isArr <;> rfl

theorem arrGetContainer_eq (b : Buffer) (ofs : ℕ) (index : UInt32) (isArr : Bool) :
    b.arrGetContainer ofs index isArr =
      expect (b.arrGetImpl ofs index) (kindOf isArr) "Type mismatch" "Type mismatch" id := by
  cases isArr <;> rfl

end Buffer

theorem Item.eq_nested {it : Item} {isArr : Bool} (h : it.type = kindOf isArr) :
    ∃ o, it = .nested isArr o := by
  rcases it with v | ⟨a, o⟩
  · cases v <;> cases isArr <;> cases h
  · have ha : a = isArr := by cases a <;> cases isArr <;> first | rfl | cases h
    exact ⟨o, by rw [ha]⟩

theorem Item.ReadBack.container {b : Buffer} {ofs o : ℕ} {index : UInt32} {isArr : Bool}
    (h : (Item.nested isArr o).ReadBack b ofs index) :
    b.arrGetContainer ofs index isArr = .ok o := by
  cases isArr <;> exact h

namespace World

variable {w : World} {l l' d : Cell} {p q : Place} {path : List Place} {isArr : Bool}
  {ks : List Call} {k : Call}

theorem Faithful.getContainer (h : w.Faithful) (hl : l ∈ w.cells) (hla : l.isArr = false)
    (key : List UInt8) (isArr : Bool) :
    (∃ o, l.fields key = some (.nested isArr o) ∧ w.buf.getContainer l.ofs key isArr = .ok o) ∨
      (∀ o, l.fields key ≠ some (.nested isArr o)) ∧
        ∃ e, w.buf.getContainer l.ofs key isArr = .error (.exception e) := by
  have hf := h.1 l hl hla key
  rw [Buffer.getContainer_eq]
  cases hit : l.fields key with
  | none =>
    rw [hit] at hf
    rw [Buffer.lookup_of_fetch_none hf]
    exact Or.inr ⟨by simp, _, rfl⟩
  | some it =>
    rw [hit] at hf
    obtain ⟨p, hp, ho⟩ := hf
    rw [(Buffer.lookup_of_fetch hp).1]
    have hne : some (some (it.type, p)) ≠ none := by simp
    rcases Buffer.expect_kind hne (kindOf isArr) "Type mismatch" "Type mismatch" with
      ⟨p', hf, he⟩ | ⟨hno, he⟩
    · obtain ⟨ht, rfl⟩ : it.type = kindOf isArr ∧ p = p' := by simpa using hf
      obtain ⟨o, rfl⟩ := Item.eq_nested ht
      rw [← ho isArr o rfl]
      exact Or.inl ⟨_, rfl, he⟩
    · refine Or.inr ⟨fun o hit => hno p ?_, he⟩
      rw [Option.some_inj.mp hit]
      rfl

theorem Faithful.arrGetContainer (h : w.Faithful) (hl : l ∈ w.cells) (hla : l.isArr = true)
    (index : UInt32) (isArr : Bool) :
    (∃ o, l.items[index.toNat]? = some (.nested isArr o) ∧
      w.buf.arrGetContainer l.ofs index isArr = .ok o) ∨
      (∀ o, l.items[index.toNat]? ≠ some (.nested isArr o)) ∧
        ∃ e, w.buf.arrGetContainer l.ofs index isArr = .error (.exception e) := by
  obtain ⟨-, hread, hthrow⟩ := h.2 l hl hla
  cases hit : l.items[index.toNat]? with
  | none =>
    have ht := hthrow index (List.getElem?_eq_none_iff.mp hit)
    cases isArr
    · exact Or.inr ⟨by simp, ht.obj⟩
    · exact Or.inr ⟨by simp, ht.arr⟩
  | some it =>
    obtain ⟨htype, hback⟩ := hread index it hit
    have hne : w.buf.arrGetImpl l.ofs index ≠ none := by
      intro hn
      rw [Buffer.arrGetType, hn] at htype
      cases htype
    rcases Buffer.expect_kind hne (kindOf isArr) "Type mismatch" "Type mismatch" with
      ⟨p, hf, -⟩ | ⟨hno, he⟩
    · rw [Buffer.arrGetType, hf] at htype
      obtain ⟨o, rfl⟩ := Item.eq_nested (Except.ok.inj htype).symm
      exact Or.inl ⟨o, rfl, hback.container⟩
    · rw [Buffer.arrGetContainer_eq]
      refine Or.inr ⟨fun o hit => ?_, he⟩
      obtain ⟨e, he⟩ := he
      obtain rfl := Option.some_inj.mp hit
      have hok := hback.container
      rw [Buffer.arrGetContainer_eq, he] at hok
      cases hok

/-- The proxy of a place reads the scalar there. -/
theorem Faithful.reads (h : w.Faithful) (hl : l ∈ w.cells) (hk : l.isArr = p.isArr)
    (hp : p ≠ .key []) {x : Scalar} (hx : l.itemAt p = some (.scalar x)) :
    (Value.of l.ofs p).Reads w.buf x := by
  cases p with
  | key key =>
    have hne : key ≠ [] := fun he => hp (he ▸ rfl)
    have hf := h.1 l hl hk key
    rw [show l.fields key = some (.scalar x) from hx] at hf
    obtain ⟨p, hp, -⟩ := hf
    obtain ⟨hlook, hpay⟩ := Buffer.lookup_of_fetch hp
    cases x <;> simp only [Value.Reads, Value.toBool, Value.toI64, Value.toF64, Value.toStr,
      Value.cast, Value.of, Bool.false_eq_true, if_false, if_pos hne, Buffer.getBool, Buffer.getI64,
      Buffer.getF64, Buffer.getStr, hlook, Item.type, Scalar.type, Buffer.expect_found,
        Value.caught]
    · exact congrArg some (Buffer.readBool_eq hpay)
    · exact congrArg some (Buffer.readI64_eq hpay)
    · exact congrArg some (Buffer.readF64_eq hpay)
    · exact congrArg some (Buffer.readSpan_str hpay)
  | index i =>
    obtain ⟨-, hback⟩ := (h.2 l hl hk).2.1 i _ hx
    cases x <;> simp only [Item.ReadBack] at hback <;>
      simp only [Value.Reads, Value.toBool, Value.toI64, Value.toF64, Value.toStr, Value.cast,
        Value.of, if_true, hback, Value.caught]

end World

namespace Place

variable {b : Buffer} {o : ℕ} {p : Place} {isArr : Bool}

/-- Looking up a container at the place. -/
def found (b : Buffer) (o : ℕ) (isArr : Bool) : Place → Except Fault ℕ
  | key k => b.getContainer o k isArr
  | index i => b.arrGetContainer o i isArr

/-- Making a container at the place. -/
def made (b : Buffer) (o : ℕ) (isArr : Bool) : Place → Option ℕ × Buffer
  | key k => b.setContainer o k isArr
  | index _ => b.arrAppendContainer o isArr

/-- The call that makes it. -/
def create (o : ℕ) (isArr : Bool) : Place → Call
  | key k => .create isArr o k
  | index _ => .appendNew isArr o

theorem currentNode_of (hp : p ≠ key []) :
    (Value.of o p).currentNode b isArr = b.orMake (p.found b o isArr) (p.made b o isArr) := by
  unfold Value.currentNode
  cases p with
  | key k =>
    have hne : k ≠ [] := fun he => hp (he ▸ rfl)
    exact (if_neg (by simp [Value.of])).trans (if_pos hne)
  | index i =>
    exact (if_neg (by simp [Value.of])).trans ((if_neg (by simp [Value.of])).trans (if_pos rfl))

theorem makes_of (hp : p ≠ key []) : (Value.of o p).makes b isArr =
    match p.found b o isArr with
    | .error (.exception _) => some (p.create o isArr)
    | _ => none := by
  unfold Value.makes
  cases p with
  | key k =>
    have hne : k ≠ [] := fun he => hp (he ▸ rfl)
    exact (if_neg (by simp [Value.of])).trans (if_pos hne)
  | index i =>
    exact (if_neg (by simp [Value.of])).trans ((if_neg (by simp [Value.of])).trans (if_pos rfl))

theorem indexed_some (v : Value) (b : Buffer) (q : Place) : Value.indexed (some v, b) q =
    ((v.currentNode b q.isArr).1.map (Value.of · q), (v.currentNode b q.isArr).2) := by
  cases q <;> rfl

theorem buf_step_create (w : World) (p : Place) (o : ℕ) (isArr : Bool) :
    (w.step (p.create o isArr)).buf = (p.made w.buf o isArr).2 := by
  cases p with
  | key k => exact w.buf_step_create isArr o k
  | index i => exact w.buf_step_appendNew isArr o

end Place

namespace World

variable {w : World} {l l' d : Cell} {p q : Place} {path : List Place} {isArr : Bool}
  {ks : List Call} {k : Call} {o : ℕ}

theorem Faithful.found (h : w.Faithful) (hl : l ∈ w.cells) (hk : l.isArr = p.isArr) (isArr : Bool) :
    (∃ o, l.itemAt p = some (.nested isArr o) ∧ p.found w.buf l.ofs isArr = .ok o) ∨
      (∀ o, l.itemAt p ≠ some (.nested isArr o)) ∧
        ∃ e, p.found w.buf l.ofs isArr = .error (.exception e) := by
  cases p with
  | key key => exact h.getContainer hl hk key isArr
  | index i => exact h.arrGetContainer hl hk i isArr

/-- An expression goes through to the place where it stands. -/
theorem Stands.eval (hs : Stands w path l p) (hw : w.Faithful) :
    path.foldl Value.indexed (some .root, w.buf) = (some (.of l.ofs p), w.buf) := by
  induction hs with
  | @root l q _ ho _ _ =>
    rw [List.foldl_cons, List.foldl_nil, Place.indexed_some, ho]
    rfl
  | @sub path l d p q hs hd hi hc hka hq ih =>
    rw [List.foldl_append, ih, List.foldl_cons, List.foldl_nil, Place.indexed_some,
      Place.currentNode_of hs.ne_nil, ← hka]
    rcases hw.found hs.mem hs.kind d.isArr with ⟨o, ho, hf⟩ | ⟨hno, -⟩
    · rw [hf]
      rw [hi] at ho
      cases ho
      rfl
    · exact absurd hi (hno _)

theorem buf_run_makes (w : World) (v : Value) (isArr : Bool) :
    (w.run (v.makes w.buf isArr).toList).buf = (v.currentNode w.buf isArr).2 := by
  unfold Value.makes Value.currentNode
  split_ifs
  · rfl
  · cases w.buf.getContainer v.parentOfs v.key isArr with
    | ok o => rfl
    | error e =>
      cases e with
      | exception _ => exact w.buf_step_create isArr v.parentOfs v.key
      | unfinished => rfl
  · cases w.buf.arrGetContainer v.parentOfs v.index isArr with
    | ok o => rfl
    | error e =>
      cases e with
      | exception _ => exact w.buf_step_appendNew isArr v.parentOfs
      | unfinished => rfl
  · rfl

theorem indexed_foldl (s : Option Value × World) (path : List Place) :
    path.foldl Value.indexed (s.1, s.2.buf) =
      ((path.foldl follow s).1, (path.foldl follow s).2.buf) := by
  induction path generalizing s with
  | nil => rfl
  | cons p path ih =>
    rw [List.foldl_cons, List.foldl_cons, ← ih]
    rcases s with ⟨_ | v, w⟩
    · rfl
    · rw [follow, buf_run_makes, Place.indexed_some]

theorem Stands.enter (hs : Stands w path l p) (hw : w.Sound)
    (hi : l.itemAt p = some (.nested q.isArr o)) (hq : q ≠ .key []) :
    ∃ d, d.ofs = o ∧ Stands w (path ++ [q]) d q := by
  obtain ⟨d, hd, rfl, hda, hdc⟩ := hw.closed l hs.mem _ _ _ (Cell.has_of_itemAt hi)
  exact ⟨d, rfl, .sub hs hd (by rw [hda]; exact hi) hdc hda hq⟩

theorem Stands.becomes {it : Item} (hs : Stands w path l p) (hw : w.Sound) (hk : k.ofs = l.ofs)
    (hl' : l' ∈ (w.step k).cells) (hb : l.Becomes l' p it) : Stands (w.step k) path l' p :=
  hs.kept hw hk hl' hb.ofs hb.kind hb.chain

theorem Sound.size_eq (hw : w.Sound) (hl : l ∈ w.cells) (hla : l.isArr = true) :
    (NodeView.size w.buf.mem l.ofs).toNat = l.items.length := (hw.faithful.2 l hl hla).1

theorem Stands.made (hs : Stands w path l p) (hw : w.Sound) (isArr : Bool)
    (hok : (Value.of l.ofs p).Allows w (some (p.create l.ofs isArr))) :
    (w.step (p.create l.ofs isArr)).Sound ∧ ∃ o, (p.made w.buf l.ofs isArr).1 = some o ∧
      ∃ l', Stands (w.step (p.create l.ofs isArr)) path l' p ∧
        l'.itemAt p = some (.nested isArr o) := by
  obtain ⟨hl, hc, hr, hi⟩ := hok _ rfl
  refine ⟨hw.step hl hc hr, ?_⟩
  cases p with
  | key key =>
    obtain ⟨o, ho⟩ := hw.create_result hl hc hr
    obtain ⟨l', hl', hb⟩ := hw.step_create hs.mem ho
    exact ⟨o, ho, l', hs.becomes hw rfl hl' hb, hb.item⟩
  | index i =>
    obtain ⟨cs, hcs⟩ := hw.backed
    obtain ⟨o, ho⟩ := hcs.appended preserved_exact hl
    have hi : i.toNat = l.items.length := (congrArg UInt32.toNat (hi rfl)).trans
      (hw.size_eq hs.mem hs.kind)
    obtain ⟨l', hl', hb⟩ := step_appendNew hs.mem hi ho
    exact ⟨o, ho, l', hs.becomes hw rfl hl' hb, hb.item⟩

theorem Stands.follow_found (hs : Stands w path l p) (hw : w.Sound) (hq : q ≠ .key [])
    (hi : l.itemAt p = some (.nested q.isArr o)) (hf : p.found w.buf l.ofs q.isArr = .ok o) :
    ∃ d, World.follow (some (.of l.ofs p), w) q = (some (.of d.ofs q), w) ∧
      Stands w (path ++ [q]) d q := by
  obtain ⟨d, rfl, hd⟩ := hs.enter hw hi hq
  refine ⟨d, ?_, hd⟩
  rw [World.follow, Place.indexed_some, Place.currentNode_of hs.ne_nil,
    Place.makes_of hs.ne_nil, hf]
  rfl

theorem Stands.follow_made (hs : Stands w path l p) (hw : w.Sound) (hq : q ≠ .key [])
    {e : String} (hf : p.found w.buf l.ofs q.isArr = .error (.exception e))
    (hok : (Value.of l.ofs p).Allows w (some (p.create l.ofs q.isArr))) :
    (w.step (p.create l.ofs q.isArr)).Sound ∧ ∃ d,
      World.follow (some (.of l.ofs p), w) q =
        (some (.of d.ofs q), w.step (p.create l.ofs q.isArr)) ∧
      Stands (w.step (p.create l.ofs q.isArr)) (path ++ [q]) d q := by
  obtain ⟨hw', o, ho, l', hl', hi⟩ := hs.made hw q.isArr hok
  obtain ⟨d, rfl, hd⟩ := hl'.enter hw' hi hq
  refine ⟨hw', d, ?_, hd⟩
  rw [World.follow, Place.indexed_some, Place.currentNode_of hs.ne_nil,
    Place.makes_of hs.ne_nil, hf, Buffer.orMake, ho]
  rfl

/-- One more step of an expression. -/
theorem Stands.follow (hs : Stands w path l p) (hw : w.Sound)
    (hok : Passable (some (.of l.ofs p), w) q) :
    ∃ d w', World.follow (some (.of l.ofs p), w) q = (some (.of d.ofs q), w') ∧ w'.Sound ∧
      Stands w' (path ++ [q]) d q := by
  obtain ⟨hq, hallow⟩ := hok
  have hallow := hallow _ rfl
  rw [Place.makes_of hs.ne_nil] at hallow
  rcases hw.faithful.found hs.mem hs.kind q.isArr with ⟨o, hi, hf⟩ | ⟨-, e, hf⟩
  · obtain ⟨d, hv, hd⟩ := hs.follow_found hw hq hi hf
    exact ⟨d, w, hv, hw, hd⟩
  · rw [hf] at hallow
    obtain ⟨hw', d, hv, hd⟩ := hs.follow_made hw hq hf hallow
    exact ⟨d, _, hv, hw', hd⟩

theorem Stands.follows {qs : List Place} (hs : Stands w path l p) (hw : w.Sound)
    (hok : Loop.Allowed World.follow Passable (some (.of l.ofs p), w) qs) :
    ∃ d q w', qs.foldl World.follow (some (.of l.ofs p), w) = (some (.of d.ofs q), w') ∧ w'.Sound ∧
      Stands w' (path ++ qs) d q := by
  induction qs generalizing w l p path with
  | nil => exact ⟨l, p, w, rfl, hw, by rwa [List.append_nil]⟩
  | cons q qs ih =>
    obtain ⟨d, w', hv, hw', hs'⟩ := hs.follow hw hok.1
    have hok := hok.2
    rw [hv] at hok
    obtain ⟨e, q', w'', he, hw'', hs''⟩ := ih hs' hw' hok
    refine ⟨e, q', w'', ?_, hw'', by simpa using hs''⟩
    rw [List.foldl_cons, hv, he]

/-- A root is there, of the kind the document was started with. -/
def HasRoot (isArr : Bool) (w : World) : Prop :=
  ∃ l ∈ w.cells, l.ofs = 0 ∧ l.isArr = isArr ∧ l.chain = []

theorem HasRoot.run (h : w.HasRoot isArr) (ks : List Call) : (w.run ks).HasRoot isArr := by
  induction ks generalizing w with
  | nil => exact h
  | cons k ks ih =>
    obtain ⟨l, hl, ho, ha, hc⟩ := h
    obtain ⟨l', hl', ho', ha', hc'⟩ := step_cell hl (Call.not_hides (k := k) hc)
    exact ih ⟨l', hl', ho'.trans ho, ha'.trans ha, hc'.trans hc⟩

theorem hasRoot_start (isArr : Bool) : (start isArr).HasRoot isArr :=
  ⟨_, List.mem_singleton_self _, rfl, rfl, rfl⟩

/-- An allowed expression comes to a place of a container. -/
theorem Sound.follows (hw : w.Sound) (hr : w.HasRoot isArr) (hp : p.isArr = isArr)
    (hok : Loop.Allowed World.follow Passable (some .root, w) (p :: path)) :
    ∃ d q w', (p :: path).foldl World.follow (some .root, w) = (some (.of d.ofs q), w') ∧ w'.Sound ∧
      Stands w' (p :: path) d q := by
  obtain ⟨l, hl, ho, ha, -⟩ := hr
  have hroot : World.follow (some .root, w) p = (some (.of l.ofs p), w) := by
    rw [World.follow, Place.indexed_some, ho]
    rfl
  have hs : Stands w [p] l p := .root hl ho (ha.trans hp.symm) hok.1.1
  have hrest := hok.2
  rw [hroot] at hrest
  obtain ⟨d, q, w', hv, hw', hs'⟩ := hs.follows hw hrest
  refine ⟨d, q, w', ?_, hw', hs'⟩
  rw [List.foldl_cons, hroot, hv]

theorem Stands.assigned (hs : Stands w path l p) (hw : w.Sound) (x : Scalar)
    (hok : (Value.of l.ofs p).Allows w ((Value.of l.ofs p).assigns x)) :
    ∃ w' l', (Value.of l.ofs p).assign w.buf x = w'.buf ∧ w'.Sound ∧ Stands w' path l' p ∧
      l'.itemAt p = some (.scalar x) := by
  cases p with
  | key key =>
    have hne : key ≠ [] := fun he => hs.ne_nil (he ▸ rfl)
    obtain ⟨hl, hc, hr, -⟩ := hok (.set l.ofs key x) (if_pos hne)
    obtain ⟨l', hl', hb⟩ := hw.step_set hs.mem key x
    exact ⟨w.step (.set l.ofs key x), l', if_pos hne, hw.step hl hc hr,
      hs.becomes hw rfl hl' hb, hb.item⟩
  | index i =>
    obtain ⟨hl, hc, hr, hi⟩ := hok (.append l.ofs x) rfl
    have hi : i.toNat = l.items.length := (congrArg UInt32.toNat (hi rfl)).trans
      (hw.size_eq hs.mem hs.kind)
    obtain ⟨l', hl', hb⟩ := step_append hs.mem hi x
    exact ⟨_, l', rfl, hw.step hl hc hr, hs.becomes hw rfl hl' hb, hb.item⟩

/-- After an assignment through a proxy the same expression reads the value, as long as no key is
empty, calls are legal and routed and find room, and elements are added at the end. -/
theorem assigned_read (h : Careful isArr ks) (hp : p.isArr = isArr)
    (hok : Loop.Allowed follow Passable (some .root, (start isArr).run ks) (p :: path)) (x : Scalar)
    (hx : Assignable ((p :: path).foldl follow (some .root, (start isArr).run ks)) x) :
    AssignedReads ((start isArr).run ks).buf (p :: path) x := by
  obtain ⟨d, q, w₁, hv, hw₁, hs⟩ := h.sound.follows ((hasRoot_start isArr).run ks) hp hok
  rw [hv] at hx
  have hx : (Value.of d.ofs q).Allows w₁ _ := hx _ rfl
  obtain ⟨w₂, l, hbuf, hw₂, hs₂, hi⟩ := hs.assigned hw₁ x hx
  have heval := indexed_foldl (some .root, (start isArr).run ks) (p :: path)
  rw [hv] at heval
  refine ⟨_, _, _, _, heval, ?_, hw₂.faithful.reads hs₂.mem hs₂.kind hs₂.ne_nil hi, ?_⟩
  · rw [hbuf]
    exact hs₂.eval hw₂.faithful
  · cases q with
    | key key => simp [Value.of]
    | index i =>
      intro _ hlt
      have hi : i = NodeView.size w₁.buf.mem d.ofs := (hx (.append d.ofs x) rfl).2.2.2 rfl
      have hlt : i < NodeView.size w₁.buf.mem d.ofs := hlt
      rw [← hi] at hlt
      exact absurd hlt (UInt32.lt_irrefl i)

set_option maxRecDepth 10000 in
/-- `root["a"][0]["b"]` makes an array and an object in it. -/
theorem assigned_read_deep : AssignedReads ((start false).run [.set 0 [99] .null]).buf
    [.key [97], .index 0, .key [98]] (.str [65]) := by
  have hok : Loop.Allowed follow Passable (some .root, (start false).run [.set 0 [99] .null])
      [.key [97], .index 0, .key [98]] := by decide +kernel
  have hx : Assignable ([Place.key [97], .index 0, .key [98]].foldl follow
      (some .root, (start false).run [.set 0 [99] .null])) (.str [65]) := by decide +kernel
  have hroot : (Place.key [97]).isArr = false := rfl
  exact assigned_read (by decide +kernel) hroot hok _ hx

set_option maxRecDepth 10000 in
/-- Assigning to an index that is present appends, and assigning under the empty key does
nothing. -/
theorem assigned_lost :
    (¬ ∀ ks (i : UInt32) x, Careful true ks →
      i ≤ NodeView.size ((start true).run ks).buf.mem 0 →
      AssignedReads ((start true).run ks).buf [.index i] (.i64 x)) ∧
    ¬ ∀ ks x, Careful false ks → AssignedReads ((start false).run ks).buf [.key []] (.i64 x) := by
  constructor
  · intro h
    obtain ⟨v, b₁, v', b₂, h₁, h₂, hread, -⟩ :=
      h [.append 0 (.i64 1)] 0 2 (by decide +kernel) (by decide +kernel)
    cases h₁
    cases h₂
    revert hread
    decide +kernel
  · intro h
    obtain ⟨v, b₁, v', b₂, h₁, h₂, hread, -⟩ := h [] 1 (by decide +kernel)
    cases h₁
    cases h₂
    revert hread
    decide +kernel

end World

end Lite3
