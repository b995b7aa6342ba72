import Lite3.Json.Forest

/-! # Storing documents in forests

The loops over the elements of an array and over the members of an object fill
the container that has been made for them; by induction over the value, storing
any document leaves a forest.
-/

namespace Lite3

open Filing

namespace Json

/-- The keys of each object have distinct hashes, or all containers find room. -/
def Roomy (made : List ℕ) (fs : List Filing) (v : Json) : Prop := v.All Keyed ∨ AllClear made fs

/-- Arrays hold nothing but nulls, or the value is legible and what comes again takes the place of
what was there. -/
def Printable (fs : List Filing) (v : Json) : Prop :=
  v.All Nulls ∨ v.legible = true ∧ ∀ f ∈ fs, f.Orderly

/-- Fill the container at an offset. -/
def fill (y : Yyjson) (o : ℕ) : Json → Buffer → Bool × Buffer
  | .atom _, b => (true, b)
  | .arr items, b => storeItems y o items b
  | .obj members, b => storeMembers y o members b

/-- The values stored there. -/
def inside (y : Yyjson) (o : ℕ) : Json → Buffer → List Filing
  | .atom _, _ => []
  | .arr items, b => itemFilings y o items b
  | .obj members, b => memberFilings y (members.map Prod.snd) o members b

end Json

/-- The value has been stored as the entry `x` of a container. -/
structure Lands (valid : List UInt8 → Prop) (y : Yyjson) (v : Json) (t : Target) (made : List ℕ)
    (b : Buffer) (cs : List Container) (c : Container) (b' : Buffer) (cs' : List Container)
    (c' : Container) (x : Entry) : Prop where
  result : v.store y t b = (true, b')
  forest : Forest valid b' cs'
  takes : Takes y v t b cs c cs' c' x
  housed : Housed cs' (homes (v.filings y t b) (t.home b v ++ made))
  leads : v.Blocked → x.Leads cs' c'
  shows : v.Printable (v.filings y t b) → x.Shows cs' c'

/-- Whatever takes the value can store it. -/
def Stocks (valid : List UInt8 → Prop) (y : Yyjson) (v : Json) : Prop :=
  ∀ b cs c t made, Forest valid b cs → c ∈ cs → Housed cs made → Target.Admits valid made b v c t →
    v.Roomy (t.home b v ++ made) (v.filings y t b) → (v.store y t b).2.usedSize < 2 ^ 32 →
      ∃ b' cs' c' x, Lands valid y v t made b cs c b' cs' c' x

/-- A new container has been filled. -/
structure Fills (valid : List UInt8 → Prop) (y : Yyjson) (v : Json) (isArr : Bool) (o : ℕ)
    (made : List ℕ) (b : Buffer) (cs : List Container) (b' : Buffer) (cs' : List Container)
    (c' : Container) : Prop extends Becomes cs (.empty isArr o) cs' c' where
  result : v.fill y o b = (true, b')
  forest : Forest valid b' cs'
  housed : Housed cs' (homes (v.inside y o b) made)
  blocked : v.Blocked → c'.Blocked cs'
  shown : v.Printable (v.inside y o b) → c'.Shown cs'

def Fillable (valid : List UInt8 → Prop) (y : Yyjson) (v : Json) (isArr : Bool) : Prop :=
  ∀ b cs o made, Forest valid b cs → .empty isArr o ∈ cs → Housed cs made →
    v.Roomy made (v.inside y o b) → (v.fill y o b).2.usedSize < 2 ^ 32 →
      ∃ b' cs' c', Fills valid y v isArr o made b cs b' cs' c'

/-- An array has taken the items. -/
structure Lists (valid : List UInt8 → Prop) (y : Yyjson) (items : List Json) (made : List ℕ)
    (b : Buffer) (cs : List Container) (c : Container) (b' : Buffer) (cs' : List Container)
    (c' : Container) : Prop extends Becomes cs c cs' c' where
  result : storeItems y c.ofs items b = (true, b')
  forest : Forest valid b' cs'
  housed : Housed cs' (homes (itemFilings y c.ofs items b) made)
  nulls : (∀ v ∈ items, v.IsNull) → ∀ e ∈ c'.entries, e ∈ c.entries ∨ e.type = .null
  small : c.Small → c.entries.length + items.length ≤ 6 → c'.Small ∧
    (∀ e ∈ c.entries, e ∈ c'.entries) ∧
    ∀ v ∈ items, ∃ e ∈ c'.entries, e.type = v.tag y

/-- An object has taken the members. -/
structure Maps (valid : List UInt8 → Prop) (y : Yyjson) (siblings : List Json)
    (members : List (List UInt8 × Json)) (made : List ℕ) (b : Buffer) (cs : List Container)
    (c : Container) (b' : Buffer) (cs' : List Container) (c' : Container) : Prop
    extends Becomes cs c cs' c' where
  result : storeMembers y c.ofs members b = (true, b')
  forest : Forest valid b' cs'
  housed : Housed cs' (homes (memberFilings y siblings c.ofs members b) made)
  length_le : c'.entries.length ≤ c.entries.length + members.length
  stays : ∀ e ∈ c.entries, e.Leads cs c → (∀ m ∈ members, cstr m.1 ≠ e.key) →
    e ∈ c'.entries ∧ e.Leads cs' c'
  leads : ∀ before m after, members = before ++ m :: after → (∀ n ∈ after, cstr n.1 ≠ cstr m.1) →
    m.2.Blocked → ∃ e ∈ c'.entries, e.Leads cs' c'
  shows : (∀ e ∈ c.entries, e.Shows cs c) →
    ((∀ m ∈ members, m.2.All Json.Nulls) ∨ (∀ m ∈ members, m.2.legible = true) ∧
      ∀ f ∈ memberFilings y siblings c.ofs members b, f.Orderly) →
    ∀ e ∈ c'.entries, e.Shows cs' c'
  last : Entry.Ordered c.entries →
    (∀ e ∈ c.entries, e.Shows cs c ∨ ∃ m ∈ members, cstr m.1 = e.key) →
    membersLegible members = true → (¬ ∀ v ∈ siblings, v.legible = true) →
    (∀ f ∈ memberFilings y siblings c.ofs members b, f.Orderly) → ∀ e ∈ c'.entries, e.Shows cs' c'

variable {valid : List UInt8 → Prop} {y : Yyjson} {b b₁ b' : Buffer} {v : Json} {t : Target}
  {cs cs₁ cs' : List Container} {c c₁ c' : Container} {e x : Entry} {isArr : Bool} {o : ℕ}
  {made : List ℕ} {items siblings : List Json} {members : List (List UInt8 × Json)}

theorem Lands.itemFilings_eq {vs : List Json}
    (hst : Lands valid y v (.behind c.ofs) made b cs c b₁ cs₁ c₁ x) :
    itemFilings y c.ofs (v :: vs) b = ⟨b, .behind c.ofs, v, []⟩ ::
      (v.filings y (.behind c.ofs) b ++ itemFilings y c₁.ofs vs b₁) := by
  rw [itemFilings, hst.result, hst.takes.ofs]

theorem Lists.cons {vs : List Json}
    (hst : Lands valid y v (.behind c.ofs) made b cs c b₁ cs₁ c₁ x)
    (hl : Lists valid y vs
      (homes (v.filings y (.behind c.ofs) b) (Target.home (.behind c.ofs) b v ++ made))
      b₁ cs₁ c₁ b' cs' c') :
    Lists valid y (v :: vs) made b cs c b' cs' c' where
  toBecomes := hst.takes.toBecomes.trans hl.toBecomes
  result := by
    rw [storeItems, hst.result, ← hst.takes.ofs]
    exact hl.result
  forest := hl.forest
  housed := by
    rw [hst.itemFilings_eq, homes, homes_append]
    exact hl.housed
  nulls hnull e he := by
    rcases hl.nulls (fun u hu => hnull u (.tail _ hu)) e he with he | htype
    · rcases hst.takes.entries e he with rfl | he
      · refine .inr (hst.takes.type.trans ?_)
        rw [(hnull v (.head _)).eq]
        rfl
      · exact .inl he
    · exact .inr htype
  small hs hn := by
    rw [List.length_cons] at hn
    have hs₁ : c₁.Small := hst.takes.small _ rfl hs (by omega)
    obtain ⟨hs', hstays, hgiven⟩ := hl.small hs₁ (by have := hst.takes.length_le; omega)
    refine ⟨hs', fun e he => ?_, ?_⟩
    · rcases hst.takes.stays e he with he | hnames
      · exact hstays e he
      · have hnames : e.hash = c.size := hnames
        exact absurd (hs.below e he) (hnames ▸ UInt32.lt_irrefl _)
    · rw [List.forall_mem_cons]
      exact ⟨⟨x, hstays x hst.takes.self_mem, hst.takes.type⟩, hgiven⟩

theorem storeItems_lists (hp : ∀ v ∈ items, Stocks valid y v) (hf : Forest valid b cs) (hc : c ∈ cs)
    (hca : c.isArr = true) (hmade : Housed cs made)
    (hall : (∀ v ∈ items, v.IsAtom) ∨
      c.size.toNat + items.length < 2 ^ 26 ∧ ∀ e ∈ c.entries, e.hash < c.size)
    (hroom : (∀ v ∈ items, v.All Json.Keyed) ∨ AllClear made (itemFilings y c.ofs items b))
    (hfin : (storeItems y c.ofs items b).2.usedSize < 2 ^ 32) :
    ∃ b' cs' c', Lists valid y items made b cs c b' cs' c' := by
  induction items generalizing b cs c made with
  | nil =>
    refine ⟨b, cs, c, .refl hc, by rw [storeItems], hf, ?_, fun _ e he => .inl he, fun hs _ => ?_⟩
    · rw [itemFilings]
      exact hmade
    · exact ⟨hs, fun _ => id, by simp⟩
  | cons v vs ih =>
    have hmono := usedSize_store_le_storeItems y c.ofs v vs b
    have hadmits : Target.Admits valid made b v c (.behind c.ofs) :=
      ⟨rfl, hca, hall.imp (fun h => h v (.head _)) And.right⟩
    rw [itemFilings, AllClear, allClear_append] at hroom
    obtain ⟨b₁, cs₁, c₁, x, hst⟩ := hp v (.head _) b cs c _ made hf hc hmade hadmits
      (hroom.imp (fun h => h v (.head _)) fun h => h.2.1) (hmono.trans_lt hfin)
    have htakes := hst.takes
    have hall₁ : (∀ v ∈ vs, v.IsAtom) ∨
        c₁.size.toNat + vs.length < 2 ^ 26 ∧ ∀ e ∈ c₁.entries, e.hash < c₁.size := by
      rcases hall with hatoms | ⟨hlt, hhash⟩
      · exact .inl fun u hu => hatoms u (.tail _ hu)
      · rw [List.length_cons] at hlt
        have hsize : c₁.size.toNat = c.size.toNat + 1 := by
          rw [htakes.size _ rfl, Nat.mod_eq_of_lt (by omega)]
        refine .inr ⟨by omega, fun e he => ?_⟩
        rw [UInt32.lt_iff_toNat_lt, hsize]
        rcases htakes.entries e he with rfl | he
        · have hnames : e.hash = c.size := htakes.names
          exact hnames ▸ Nat.lt_succ_self _
        · exact Nat.lt_succ_of_lt (UInt32.lt_iff_toNat_lt.mp (hhash e he))
    have hroom₁ : (∀ v ∈ vs, v.All Json.Keyed) ∨
        AllClear (homes (v.filings y (.behind c.ofs) b) (Target.home (.behind c.ofs) b v ++ made))
          (itemFilings y c₁.ofs vs b₁) := by
      refine hroom.imp (fun h u hu => h u (.tail _ hu)) fun h => ?_
      have hrest := h.2.2
      rw [hst.result] at hrest
      rw [htakes.ofs]
      exact hrest
    rw [storeItems, hst.result, ← htakes.ofs] at hfin
    obtain ⟨b', cs', c', hl⟩ := ih (fun u hu => hp u (.tail _ hu)) hst.forest htakes.mem
      (htakes.kind.trans hca) hst.housed hall₁ hroom₁ hfin
    exact ⟨b', cs', c', .cons hst hl⟩

theorem Lands.memberFilings_eq {m : List UInt8 × Json} {ms : List (List UInt8 × Json)}
    (hst : Lands valid y m.2 (.under c.ofs (cstr m.1)) made b cs c b₁ cs₁ c₁ x) :
    memberFilings y siblings c.ofs (m :: ms) b = ⟨b, .under c.ofs (cstr m.1), m.2, siblings⟩ ::
      (m.2.filings y (.under c.ofs (cstr m.1)) b ++ memberFilings y siblings c₁.ofs ms b₁) := by
  rw [memberFilings, hst.result, hst.takes.ofs]

theorem Maps.cons {m : List UInt8 × Json} {ms : List (List UInt8 × Json)}
    (hf : Forest valid b cs) (hc : c ∈ cs)
    (hst : Lands valid y m.2 (.under c.ofs (cstr m.1)) made b cs c b₁ cs₁ c₁ x)
    (hmaps : Maps valid y siblings ms (homes (m.2.filings y (.under c.ofs (cstr m.1)) b)
      (Target.home (.under c.ofs (cstr m.1)) b m.2 ++ made)) b₁ cs₁ c₁ b' cs' c') :
    Maps valid y siblings (m :: ms) made b cs c b' cs' c' where
  toBecomes := hst.takes.toBecomes.trans hmaps.toBecomes
  result := by
    rw [storeMembers, hst.result, ← hst.takes.ofs]
    exact hmaps.result
  forest := hmaps.forest
  housed := by
    rw [hst.memberFilings_eq, homes, homes_append]
    exact hmaps.housed
  length_le := by
    have h₁ := hst.takes.length_le
    have h₂ := hmaps.length_le
    rw [List.length_cons]
    omega
  stays e he hl hne := by
    have hxkey : x.key = cstr m.1 := hst.takes.names
    have hex : e ≠ x := fun h => hne m (.head _) (hxkey.symm.trans (h ▸ rfl))
    have he₁ : e ∈ c₁.entries :=
      (hst.takes.stays e he).resolve_right fun hkey => hne m (.head _) (Eq.symm hkey)
    exact hmaps.stays e he₁ (hst.takes.leads hst.forest he₁ hex hl) fun n hn => hne n (.tail _ hn)
  leads before n after heq hlast hblocked := by
    have hxkey : x.key = cstr m.1 := hst.takes.names
    cases before with
    | nil =>
      obtain ⟨rfl, rfl⟩ := List.cons.inj heq
      obtain ⟨he, hl⟩ := hmaps.stays x hst.takes.self_mem (hst.leads hblocked) fun n hn =>
        hxkey ▸ hlast n hn
      exact ⟨x, he, hl⟩
    | cons k before => exact hmaps.leads before n after (List.cons.inj heq).2 hlast hblocked
  shows hold hprint := by
    rw [hst.memberFilings_eq] at hprint
    have hx : x.Shows cs₁ c₁ := hst.shows (hprint.imp (fun h => h m (.head _)) fun h =>
      ⟨h.1 m (.head _), fun f hf => h.2 f (.tail _ (List.mem_append_left _ hf))⟩)
    refine hmaps.shows (fun e he => ?_) (hprint.imp (fun h n hn => h n (.tail _ hn)) fun h =>
      ⟨fun n hn => h.1 n (.tail _ hn), fun f hf => h.2 f (.tail _ (List.mem_append_right _ hf))⟩)
    by_cases hex : e = x
    · exact hex ▸ hx
    · have he₀ := (hst.takes.entries e he).resolve_left hex
      exact hst.takes.shows hf hst.forest hc he₀ he hex (hold e he₀)
  last hord hold hlegible hsib horderly := by
    have hxkey : x.key = cstr m.1 := hst.takes.names
    rw [hst.memberFilings_eq] at horderly
    rw [membersLegible, Bool.and_eq_true, Bool.or_eq_true, List.any_eq_true] at hlegible
    obtain ⟨hm, hms⟩ := hlegible
    -- only in an object with an illegible value is the way of a set of importance
    have hrouted : b.Routed c.ofs (cstr m.1) := (horderly _ (.head _)).resolve_left hsib
    obtain ⟨hord₁, honly⟩ := hst.takes.routed _ _ rfl hrouted hord
    refine hmaps.last hord₁ (fun e he => ?_) hms hsib fun f hf =>
      horderly f (.tail _ (List.mem_append_right _ hf))
    by_cases hex : e = x
    · rcases hm with hm | ⟨n, hn, hkey⟩
      · refine .inl (hex ▸ hst.shows (.inr ⟨hm, fun f hf => ?_⟩))
        exact horderly f (.tail _ (List.mem_append_left _ hf))
      · exact .inr ⟨n, hn, (of_decide_eq_true hkey).trans (hxkey.symm.trans (hex ▸ rfl))⟩
    · have he₀ := (hst.takes.entries e he).resolve_left hex
      rcases hold e he₀ with hs | ⟨n, hn, hkey⟩
      · exact .inl (hst.takes.shows hf hst.forest hc he₀ he hex hs)
      · rcases List.mem_cons.mp hn with rfl | hn
        · exact absurd (honly e he hkey.symm) hex
        · exact .inr ⟨n, hn, hkey⟩

theorem storeMembers_maps (hp : ∀ m ∈ members, Stocks valid y m.2) (hf : Forest valid b cs)
    (hc : c ∈ cs) (hca : c.isArr = false) (hmade : Housed cs made)
    (hshort : ∀ m ∈ members, (cstr m.1).length ≤ 62) (hkeys : ∀ m ∈ members, valid (cstr m.1))
    (hroom : ((∀ m ∈ members, m.2.All Json.Keyed ∧ ∀ e ∈ c.entries, e.key ≠ cstr m.1) ∧
        members.Pairwise fun m n => cstr m.1 ≠ cstr n.1) ∨
      AllClear made (memberFilings y siblings c.ofs members b))
    (hfin : (storeMembers y c.ofs members b).2.usedSize < 2 ^ 32) :
    ∃ b' cs' c', Maps valid y siblings members made b cs c b' cs' c' := by
  induction members generalizing b cs c made with
  | nil =>
    refine ⟨b, cs, c, .refl hc, by rw [storeMembers], hf, ?_, le_rfl, fun e he hl _ => ⟨he, hl⟩,
      by simp, fun h _ => h, fun _ h _ _ _ e he => ?_⟩
    · rw [memberFilings]
      exact hmade
    · exact (h e he).resolve_right (by simp)
  | cons m ms ih =>
    have hmono := usedSize_store_le_storeMembers y c.ofs m ms b
    rw [memberFilings, AllClear, allClear_append] at hroom
    have hclear : b.Clears made c.ofs (cstr m.1) ∨ m.2.IsAtom := by
      obtain ⟨C₁, C₂, -, ho⟩ := hf.focus hc
      rcases hroom with ⟨hfresh, -⟩ | ⟨hclear, -⟩
      · exact .inl (Forest.clears_of_fresh ho hca (hfresh m (.head _)).2)
      · exact hclear.symm
    have hadmits : Target.Admits valid made b m.2 c (.under c.ofs (cstr m.1)) :=
      ⟨rfl, hca, hshort m (.head _), (cstr_cstr m.1).symm ▸ hkeys m (.head _), hclear.symm⟩
    obtain ⟨b₁, cs₁, c₁, x, hst⟩ := hp m (.head _) b cs c _ made hf hc hmade hadmits
      (hroom.imp (fun h => (h.1 m (.head _)).1) fun h => h.2.1) (hmono.trans_lt hfin)
    have htakes := hst.takes
    have hxkey : x.key = cstr m.1 := htakes.names
    have hroom₁ : ((∀ n ∈ ms, n.2.All Json.Keyed ∧ ∀ e ∈ c₁.entries, e.key ≠ cstr n.1) ∧
        ms.Pairwise fun m n => cstr m.1 ≠ cstr n.1) ∨
        AllClear (homes (m.2.filings y (.under c.ofs (cstr m.1)) b)
          (Target.home (.under c.ofs (cstr m.1)) b m.2 ++ made))
            (memberFilings y siblings c₁.ofs ms b₁) := by
      rcases hroom with ⟨hfresh, hpair⟩ | hclear
      · obtain ⟨hm, hpair⟩ := List.pairwise_cons.mp hpair
        refine .inl ⟨fun n hn => ⟨(hfresh n (.tail _ hn)).1, fun e he => ?_⟩, hpair⟩
        rcases htakes.entries e he with rfl | he
        · exact hxkey ▸ hm n hn
        · exact (hfresh n (.tail _ hn)).2 e he
      · have hrest := hclear.2.2
        rw [hst.result] at hrest
        rw [htakes.ofs]
        exact .inr hrest
    rw [storeMembers, hst.result, ← htakes.ofs] at hfin
    obtain ⟨b', cs', c', hmaps⟩ := ih (fun n hn => hp n (.tail _ hn)) hst.forest htakes.mem
      (htakes.kind.trans hca) hst.housed (fun n hn => hshort n (.tail _ hn))
      (fun n hn => hkeys n (.tail _ hn)) hroom₁ hfin
    exact ⟨b', cs', c', .cons hf hc hst hmaps⟩

theorem fillable_arr (hp : ∀ v ∈ items, Stocks valid y v) (hv : (Json.arr items).Storable) :
    Fillable valid y (.arr items) true := by
  intro b cs o made hf hc hmade hroom hfin
  have hall : (∀ v ∈ items, v.IsAtom) ∨
      (Container.empty true o).size.toNat + items.length < 2 ^ 26 ∧
        ∀ e ∈ (Container.empty true o).entries, e.hash < (Container.empty true o).size := by
    rw [Container.toNat_size_empty, Nat.zero_add]
    exact Or.imp id (fun h => ⟨h, by simp⟩) hv.symm
  obtain ⟨b', cs', c', hl⟩ := storeItems_lists hp hf hc rfl hmade hall
    (hroom.imp_left fun h => (Json.all_arr.mp h).2) hfin
  refine ⟨b', cs', c', hl.toBecomes, hl.result, hl.forest, hl.housed, ?_, ?_⟩
  · rintro (⟨hn, hmem, hne⟩ | _)
    obtain ⟨hs, -, hgiven⟩ := hl.small (Container.small_empty true o) (by simpa using hn)
    obtain ⟨e, he, htype⟩ := hgiven _ hmem
    exact .arr hl.kind hs he (htype ▸ Json.tag_ne_null hne)
  · intro hprint
    have hnull : ∀ v ∈ items, v.IsNull := by
      rcases hprint with h | ⟨h, -⟩
      · exact h.self
      · intro v hv
        exact of_decide_eq_true (List.all_eq_true.mp h v hv)
    refine .arr hl.kind fun e he => ?_
    exact (hl.nulls hnull e he).resolve_left (by simp)

theorem fillable_obj (hy : y.Faithful valid) (hp : ∀ m ∈ members, Stocks valid y m.2)
    (hv : (Json.obj members).Storable) (hvalid : (Json.obj members).Valid valid) :
    Fillable valid y (.obj members) false := by
  intro b cs o made hf hc hmade hroom hfin
  have hroom : ((∀ m ∈ members, m.2.All Json.Keyed ∧
        ∀ e ∈ (Container.empty false o).entries, e.key ≠ cstr m.1) ∧
        members.Pairwise fun m n => cstr m.1 ≠ cstr n.1) ∨
      AllClear made (memberFilings y (members.map Prod.snd) o members b) := by
    refine hroom.imp_left fun h => ?_
    obtain ⟨hself, hall⟩ := Json.all_obj.mp h
    refine ⟨fun m hm => ⟨hall m hm, by simp⟩, (List.pairwise_map.mp hself.2).imp fun hne heq => ?_⟩
    exact hne (congrArg djb2Hash heq)
  obtain ⟨b', cs', c', hmaps⟩ := storeMembers_maps hp hf hc rfl hmade hv
    (fun m hm => hy.cstr m.1 (hvalid m hm)) hroom hfin
  have hca : c'.isArr = false := hmaps.kind
  refine ⟨b', cs', c', hmaps.toBecomes, hmaps.result, hmaps.forest, hmaps.housed, ?_, ?_⟩
  · rintro (_ | ⟨hn, hlast, hm⟩)
    obtain ⟨e, he, d, hd, hlt, hh, hdb⟩ := hmaps.leads _ _ _ rfl hlast hm
    rw [hca] at hh
    have hlen := hmaps.length_le
    rw [Container.entries_empty, List.length_nil, Nat.zero_add] at hlen
    exact .obj hca (hlen.trans_lt hn) he hh hlt hd hdb
  · intro hprint
    have hshows : ∀ e ∈ c'.entries, e.Shows cs' c' := by
      rcases hprint with h | ⟨hlegible, horderly⟩
      · exact hmaps.shows (by simp) (.inl (Json.all_obj.mp h).2)
      · by_cases hall : ∀ v ∈ members.map Prod.snd, v.legible = true
        · refine hmaps.shows (by simp) (.inr ⟨fun m hm => ?_, horderly⟩)
          exact hall _ (List.mem_map_of_mem hm)
        · exact hmaps.last .nil (by simp) hlegible hall horderly
    refine .obj hca fun e he d hd hh => hshows e he d hd ?_
    rwa [hca]

theorem store_of_container (hv : v.tag y = kindOf isArr) (hatom : ¬ v.IsAtom) (ho : 0 < o)
    (ht : t.container b isArr = (some o, b')) :
    v.store y t b = v.fill y o b' ∧ v.filings y t b = v.inside y o b' ∧ t.home b v = [o] := by
  have hstart := started_of_pos (b := b') ho isArr
  cases v with
  | atom => exact absurd trivial hatom
  | arr =>
    obtain rfl : true = isArr := kindOf_injective hv
    simp only [Json.store, Json.filings, Target.home, ht, hstart]
    exact ⟨rfl, rfl, rfl⟩
  | obj =>
    obtain rfl : false = isArr := kindOf_injective hv
    simp only [Json.store, Json.filings, Target.home, ht, hstart]
    exact ⟨rfl, rfl, rfl⟩

theorem usedSize_container_le_store (hv : v.tag y = kindOf isArr) (hatom : ¬ v.IsAtom) :
    (t.container b isArr).2.usedSize ≤ (v.store y t b).2.usedSize := by
  cases v with
  | atom => exact absurd trivial hatom
  | arr =>
    obtain rfl : true = isArr := kindOf_injective hv
    exact usedSize_container_le_store_arr y _ t b
  | obj =>
    obtain rfl : false = isArr := kindOf_injective hv
    exact usedSize_container_le_store_obj y _ t b

theorem Fillable.stocks (hv : v.tag y = kindOf isArr) (hatom : ¬ v.IsAtom)
    (hfill : Fillable valid y v isArr) : Stocks valid y v := by
  intro b cs c t made hf hc hmade ht hroom hfin
  obtain ⟨o, b₁, cs₁, c₁, x, hop⟩ :=
    hf.exists_opens hc hmade ht hv hatom ((usedSize_container_le_store hv hatom).trans_lt hfin)
  obtain ⟨hstore, hfilings, hhome⟩ :=
    store_of_container hv hatom ((Nat.zero_le _).trans_lt hop.behind) hop.result
  rw [hfilings, hhome] at hroom
  rw [hstore] at hfin
  have hmade₁ : Housed cs₁ ([o] ++ made) := by
    rintro p hp
    rcases List.mem_cons.mp hp with rfl | hp
    · exact ⟨_, hop.empty, rfl⟩
    · exact hop.takes.toBecomes.housed hmade p hp
  obtain ⟨b', cs', d, hfl⟩ := hfill b₁ cs₁ o _ hop.forest hop.empty hmade₁ hroom hfin
  have hofs : d.ofs = o := hfl.ofs
  have hkind : d.isArr = isArr := hfl.kind
  have htakes := hop.takes_filled hfl.toBecomes
  refine ⟨b', cs', c₁, x, hstore.trans hfl.result, hfl.forest, htakes, ?_, fun hblocked => ?_,
    fun hprint => ?_⟩
  · rw [hfilings, hhome]
    exact hfl.housed
  · refine ⟨d, hfl.mem, ?_, ?_, hfl.blocked hblocked⟩
    · rw [hofs, htakes.ofs]
      exact hop.behind
    · rw [hofs, hkind]
      exact hop.holds
  · intro u hu hh
    rw [hfilings] at hprint
    have huo : u.ofs = o := (hh.ofs _ _ rfl).symm.trans (hop.holds.ofs _ _ rfl)
    obtain rfl := Buffer.Owns.eq_of_ofs hfl.forest.owns hu hfl.mem (huo.trans hofs.symm)
    exact hfl.shown hprint

/-- Every value with short keys is stored where it finds room. -/
theorem stocks_and_fillable (hy : y.Faithful valid) (hv : v.All Json.Storable)
    (hvalid : v.All (Json.Valid valid)) :
    Stocks valid y v ∧ ∀ isArr, v.tag y = kindOf isArr → ¬ v.IsAtom → Fillable valid y v isArr := by
  induction v with
  | atom a =>
    refine ⟨fun b cs c t made hf hc hmade ht _ hfin => ?_, fun _ _ h => absurd trivial h⟩
    rw [Json.store] at hfin
    obtain ⟨cs', c', x, hf', htakes⟩ := hf.takes_put hc ht (Atom.Valid.scalar hy hvalid.self) hfin
    refine ⟨_, cs', c', x, by rw [Json.store], hf', htakes, ?_, ?_, ?_⟩
    · rw [Json.filings]
      exact htakes.toBecomes.housed hmade
    · intro hblocked
      cases hblocked
    · intro _ u _ hh
      exact absurd (htakes.type.symm.trans hh.type) ((a.scalar y).type_ne_kindOf u.isArr)
  | arr items ih =>
    have hp : ∀ u ∈ items, Stocks valid y u := fun u hu =>
      (ih u hu ((Json.all_arr.mp hv).2 u hu) ((Json.all_arr.mp hvalid).2 u hu)).1
    have hfill := fillable_arr hp hv.self
    refine ⟨hfill.stocks rfl id, fun isArr h _ => ?_⟩
    obtain rfl : true = isArr := kindOf_injective h
    exact hfill
  | obj members ih =>
    have hp : ∀ m ∈ members, Stocks valid y m.2 := fun m hm =>
      (ih m hm ((Json.all_obj.mp hv).2 m hm) ((Json.all_obj.mp hvalid).2 m hm)).1
    have hfill := fillable_obj hy hp hv.self hvalid.self
    refine ⟨hfill.stocks rfl id, fun isArr h _ => ?_⟩
    obtain rfl : false = isArr := kindOf_injective h
    exact hfill

/-- A root that is no scalar fills a new buffer. -/
theorem root_fills (hy : y.Faithful valid) (hv : v.tag y = kindOf isArr) (hatom : ¬ v.IsAtom)
    (hstorable : v.All Json.Storable) (hvalid : v.All (Json.Valid valid))
    (hroom : v.Roomy [0] (v.filings y (.here 0) .empty))
    (hfin : (fromYyjsonVal y v .empty 0).2.usedSize < 2 ^ 32) :
    ∃ b cs c, fromYyjsonVal y v .empty 0 = (true, b) ∧ Forest valid b cs ∧ c ∈ cs ∧ c.ofs = 0 ∧
      c.isArr = isArr ∧ (v.Blocked → c.Blocked cs) ∧
      (v.Printable (v.filings y (.here 0) .empty) → c.Shown cs) := by
  have hstep : fromYyjsonVal y v .empty 0 =
        v.fill y 0 (Buffer.empty.initStructure (kindOf isArr)) ∧
      v.filings y (.here 0) .empty = v.inside y 0 (Buffer.empty.initStructure (kindOf isArr)) := by
    have hstart := started_empty isArr
    cases v with
    | atom => exact absurd trivial hatom
    | arr =>
      obtain rfl : true = isArr := kindOf_injective hv
      simp only [fromYyjsonVal, Json.store, Json.filings, Target.container, hstart]
      exact ⟨rfl, rfl⟩
    | obj =>
      obtain rfl : false = isArr := kindOf_injective hv
      simp only [fromYyjsonVal, Json.store, Json.filings, Target.container, hstart]
      exact ⟨rfl, rfl⟩
  rw [hstep.2] at hroom ⊢
  rw [hstep.1] at hfin ⊢
  have hmade : Housed [.empty isArr 0] [0] := by
    simp only [Housed, List.mem_singleton, forall_eq, exists_eq_left]
    rfl
  obtain ⟨b, cs, c, hfl⟩ := (stocks_and_fillable hy hstorable hvalid).2 isArr hv hatom _ _ 0 [0]
    (.start isArr) (.head _) hmade hroom hfin
  exact ⟨b, cs, c, hfl.result, hfl.forest, hfl.mem, hfl.ofs, hfl.kind, hfl.blocked, hfl.shown⟩

end Lite3
