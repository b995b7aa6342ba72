import Lite3.Json.RoundTrip

/-! # Strings through a buffer

A string is offered to the hex decoder first. What it rejects is stored as a
string; what it accepts is stored as the bytes it spells, and these are printed
in lower case.
-/

namespace Lite3

open Bytes Config Lite3.Tree

namespace Buffer

/-- The object that a path of keys leads to. -/
def follow (b : Buffer) : ℕ → List (List UInt8) → Except Fault ℕ
  | ofs, [] => .ok ofs
  | ofs, key :: path =>
    match b.getObj ofs key with
    | .error f => .error f
    | .ok o => b.follow o path

/-- What becomes of a string under a key of the object at the end of a path, in the buffer and in
the value `j` that is printed. -/
def KeepsString (b : Buffer) (j : Json) (path : List (List UInt8)) (key s : List UInt8) : Prop :=
  ∃ o, b.follow 0 path = .ok o ∧
    match hexDecode s with
    | .error _ => b.getType o key = .ok (some .string) ∧ b.getStr o key = .ok s ∧
        j.get (path ++ [key]) = some (.atom (.str s))
    | .ok bytes => b.getType o key = .ok (some .bytes) ∧ b.getBytes o key = .ok bytes ∧
        j.get (path ++ [key]) = some (.atom (.str (s.map lowerHex)))

end Buffer

variable {y : Yyjson} {C : Cell → Prop} {v u j j' : Json} {it : Item} {w : World}
  {cs : List Container} {l : Cell} {path : List (List UInt8)} {key s : List UInt8}
  {members : List (List UInt8 × Json)} {valid : List UInt8 → Prop} {text : List UInt8}

theorem World.Faithful.getObj (h : w.Faithful) (hl : l ∈ w.cells) (hla : l.isArr = false) {o : ℕ}
    (hf : l.fields key = some (.nested false o)) : w.buf.getObj l.ofs key = .ok o := by
  have hfetch := h.1 l hl hla key
  rw [hf] at hfetch
  obtain ⟨p, hp, hpo⟩ := hfetch
  rw [Buffer.getObj, (Buffer.lookup_of_fetch hp).1, hpo false o rfl]
  exact Buffer.expect_found

theorem Json.Named.keys (hnamed : v.All Json.Named) {ks : List (List UInt8)}
    (h : v.get ks = some u) : ∀ k ∈ ks, 0 ∉ k := by
  induction ks generalizing v with
  | nil => simp
  | cons k ks ih =>
    cases v with
    | atom | arr => simp [Json.get] at h
    | obj members =>
      obtain ⟨u', hu, hget⟩ := Json.get_obj h
      obtain ⟨hself, hall⟩ := Json.all_obj.mp hnamed
      exact List.forall_mem_cons.mpr ⟨hself _ hu, ih (hall _ hu) hget⟩

/-- The value at the end of a path is stored in the object that the path leads to. -/
theorem Stored.follow (hw : w.Faithful) (hs : Stored y C v it) (hC : ∀ d, C d → d ∈ w.cells)
    (hnamed : ∀ k ∈ path ++ [key], 0 ∉ k) (h : v.get (path ++ [key]) = some u) :
    ∃ o l it', it = .nested false o ∧ l ∈ w.cells ∧ l.isArr = false ∧
      w.buf.follow o path = .ok l.ofs ∧ l.fields key = some it' ∧ Stored y C u it' := by
  induction path generalizing v it with
  | nil =>
    cases hs with
    | atom a => simp [Json.get] at h
    | arr => simp [Json.get] at h
    | @obj members l item hl hla hfields hstored _ _ =>
      obtain ⟨u', hu, hget⟩ := Json.get_obj h
      obtain rfl : u' = u := by simpa [Json.get] using hget
      have hk : cstr key = key := cstr_eq_self (hnamed key (by simp))
      exact ⟨l.ofs, l, item (key, u'), rfl, hC l hl, hla, rfl,
        (congrArg l.fields hk).symm.trans (hfields _ hu), hstored _ hu⟩
  | cons k ks ih =>
    cases hs with
    | atom a => simp [Json.get] at h
    | arr => simp [Json.get] at h
    | @obj members l item hl hla hfields hstored _ _ =>
      obtain ⟨u', hu, hget⟩ := Json.get_obj h
      have hk : cstr k = k := cstr_eq_self (hnamed k (by simp))
      obtain ⟨o, d, it', hitem, hd, hda, hfollow, hf, hs'⟩ :=
        ih (hstored _ hu) (fun k' hk' => hnamed k' (List.mem_cons_of_mem _ hk')) hget
      have hstep : w.buf.getObj l.ofs k = .ok o :=
        hw.getObj (hC l hl) hla (by rw [← hitem, ← hfields _ hu, hk])
      refine ⟨l.ofs, d, it', rfl, hd, hda, ?_, hf, hs'⟩
      rw [Buffer.follow, hstep]
      exact hfollow

theorem World.Faithful.getStr (h : w.Faithful) (hl : l ∈ w.cells) (hla : l.isArr = false)
    (hf : l.fields key = some (.scalar (.str s))) :
    w.buf.getType l.ofs key = .ok (some .string) ∧ w.buf.getStr l.ofs key = .ok s := by
  have hfetch := h.1 l hl hla key
  rw [hf] at hfetch
  obtain ⟨p, hp, -⟩ := hfetch
  obtain ⟨hlook, hpay⟩ := Buffer.lookup_of_fetch hp
  constructor
  · rw [Buffer.getType, hlook]
    rfl
  · rw [Buffer.getStr, hlook]
    exact Buffer.expect_found.trans (congrArg _ (Buffer.readSpan_str hpay))

theorem World.Backed.getBytes (hw : w.Backed Exact cs) (hl : l ∈ w.cells) (hla : l.isArr = false)
    {bytes : List UInt8} (hf : l.fields key = some (.scalar (.bytes bytes))) :
    w.buf.getType l.ofs key = .ok (some .bytes) ∧ w.buf.getBytes l.ofs key = .ok bytes := by
  have hfetch := hw.faithful.1 l hl hla key
  rw [hf] at hfetch
  obtain ⟨p, hp, -⟩ := hfetch
  obtain ⟨hlook, hpay⟩ := Buffer.lookup_of_fetch hp
  obtain ⟨c, R, -, hQ, ho⟩ := hw.container hl
  have hc : c.isArr = false := hQ.tracks.kind.trans hla
  have hzero : w.buf.getImpl _ key 0 _ = _ := Container.getImpl ho (by simp [hc])
  rw [hc, hQ.tracks.ofs] at hzero
  constructor
  · rw [Buffer.getType, hlook]
    rfl
  · rw [Buffer.getBytes, hzero, hlook]
    exact congrArg _ (Buffer.readSpan_bytes hpay)

theorem Json.Keyed.distinct (hk : v.Keyed) : (v.printed y).Distinct := by
  cases v with
  | atom a => rw [Json.printed, Json.map_atom]; trivial
  | arr items => rw [Json.printed, Json.map_arr]; trivial
  | obj members =>
    rw [Json.printed, Json.map_obj]
    have hn : (members.map fun m => cstr m.1).Nodup :=
      List.Nodup.of_map djb2Hash (by simpa [Function.comp_def] using hk.2)
    simpa [Json.Distinct, Function.comp_def] using hn

theorem Json.Valid.printed (hy : y.Faithful valid) (hv : v.Valid valid) :
    (v.printed y).Valid valid := by
  cases v with
  | atom a =>
    rw [Json.printed, Json.map_atom]
    cases a with
    | null | bool => trivial
    | int z =>
      have hlo := (y.getInt z).le_toInt
      have hhi := (y.getInt z).toInt_lt
      exact ⟨hlo, hhi.trans (by norm_num)⟩
    | real bits => exact hv
    | str s =>
      rw [Atom.scalar]
      split
      · exact hy.ascii _ hexText_ascii
      · exact hy.cstr s hv
  | arr items => rw [Json.printed, Json.map_arr]; trivial
  | obj members =>
    rw [Json.printed, Json.map_obj]
    intro m hm
    obtain ⟨u, hu, rfl⟩ := List.mem_map.mp hm
    exact hy.cstr _ (hv u hu)

/-- Every string in a document of objects and scalars is kept or, if it is a hex text, decoded. -/
theorem strings_kept (hy : y.Faithful valid) (hread : y.read text = some (.obj members))
    (hflat : (Json.obj members).All Json.Flat) (hkeyed : (Json.obj members).All Json.Keyed)
    (hnamed : (Json.obj members).All Json.Named) (hcount : (Json.obj members).All Json.Counted)
    (hfits : TextFits y text) :
    ∃ b out j, fromJsonString y text = .ok (true, b) ∧ toJsonString y b 0 = .ok out ∧
      y.read out = some j ∧ ∀ path key s, 0 ∉ s →
        (Json.obj members).get (path ++ [key]) = some (.atom (.str s)) →
          b.KeepsString j path key s := by
  have hfrom : fromJsonString y text = .ok (fromYyjsonVal y (.obj members) .empty 0) := by
    rw [fromJsonString, hread]
  obtain ⟨w, cs, l, hstore, hw, hofs, hs⟩ := stored_obj hkeyed (hfits _ _ hfrom)
  obtain ⟨j, hj, hall, hback⟩ :=
    printed_obj hw hofs hs hkeyed (hflat.imp fun _ => Json.Flat.nulls)
  have hsame := hall.mpr (hs.showsAll hw (fun _ => id) hkeyed hcount 0 (hofs ▸ rfl))
  have hvalid : ((Json.obj members).printed y).All (Json.Valid valid) :=
    ((hy.read _ _ hread).imp fun _ hv => hv.printed hy).map
  have hdistinct : ((Json.obj members).printed y).All Json.Distinct :=
    (hkeyed.imp fun _ hv => hv.distinct).map
  obtain ⟨out, hout, hback⟩ := hy.write j (hback valid hvalid)
  refine ⟨w.buf, out, j, hfrom.trans (congrArg _ hstore), ?_, hback, fun path key s h0 hget => ?_⟩
  · rw [toJsonString, hj]
    simp [Except.map, hout]
  have hexact := hw.imp fun _ _ h => h.exact
  have hprinted : j.get (path ++ [key]) = some (.atom (((Atom.str s).scalar y).atom)) := by
    refine hsame.get_atom hdistinct (Json.get_map hdistinct ?_ hget)
    refine hnamed.imp fun v hv ms hms m hm => ?_
    subst hms
    exact cstr_eq_self (hv m hm)
  obtain ⟨o, d, it, ho, hd, hda, hfollow, hf, hstr⟩ :=
    hs.follow hexact.faithful (fun _ => id) (Json.Named.keys hnamed hget) hget
  cases hstr
  obtain rfl : l.ofs = o := (Item.nested.inj ho).2
  rw [hofs] at hfollow
  refine ⟨d.ofs, hfollow, ?_⟩
  rw [Atom.scalar, cstr_eq_self h0] at hf hprinted
  cases hdec : hexDecode s with
  | error msg =>
    rw [hdec] at hf hprinted
    obtain ⟨htype, hget⟩ := hexact.faithful.getStr hd hda hf
    exact ⟨htype, hget, hprinted⟩
  | ok bytes =>
    rw [hdec] at hf hprinted
    obtain ⟨htype, hget⟩ := hexact.getBytes hd hda hf
    refine ⟨htype, hget, ?_⟩
    rw [hprinted]
    exact congrArg (fun t => some (Json.atom (.str t))) (hexText_of_decode hdec)

/-- `{"a":{"b":"hi"},"c":"AB"}` -/
def stringsText : List UInt8 :=
  [123, 34, 97, 34, 58, 123, 34, 98, 34, 58, 34, 104, 105, 34, 125, 44, 34, 99, 34, 58, 34, 65, 66,
    34, 125]

def stringsMembers : List (List UInt8 × Json) :=
  [([97], .obj [([98], .atom (.str [104, 105]))]), ([99], .atom (.str [65, 66]))]

theorem strings_kept_nested : ∃ b out j,
    fromJsonString (.sample [(stringsText, .obj stringsMembers)]) stringsText = .ok (true, b) ∧
    toJsonString (.sample [(stringsText, .obj stringsMembers)]) b 0 = .ok out ∧
    (Yyjson.sample [(stringsText, .obj stringsMembers)]).read out = some j ∧
    ∀ path key s, 0 ∉ s → (Json.obj stringsMembers).get (path ++ [key]) = some (.atom (.str s)) →
      b.KeepsString j path key s := by
  have hread : (Yyjson.sample [(stringsText, .obj stringsMembers)]).read stringsText =
      some (.obj stringsMembers) := rfl
  exact strings_kept (Yyjson.sample_faithful (by decide) (by decide) (by decide)) hread (by decide)
    (by decide) (by decide) (by decide) (textFits hread (by decide +kernel))

/-- `{"a":"AB"}` -/
def spelledText : List UInt8 := [123, 34, 97, 34, 58, 34, 65, 66, 34, 125]

def spelledMembers : List (List UInt8 × Json) := [([97], .atom (.str [65, 66]))]

/-- The string is stored as the byte it spells. -/
theorem string_decoded : ¬ ∀ (y : Yyjson) (valid : List UInt8 → Prop) (text : List UInt8)
    (members : List (List UInt8 × Json)), y.Faithful valid → y.read text = some (.obj members) →
    (Json.obj members).All Json.Flat → (Json.obj members).All Json.Keyed →
    (Json.obj members).All Json.Named →
    ∃ b out j, fromJsonString y text = .ok (true, b) ∧ toJsonString y b 0 = .ok out ∧
      y.read out = some j ∧ ∀ path key s, 0 ∉ s →
        (Json.obj members).get (path ++ [key]) = some (.atom (.str s)) →
        ∃ o, b.follow 0 path = .ok o ∧ b.getType o key = .ok (some .string) ∧
          b.getStr o key = .ok s ∧ j.get (path ++ [key]) = some (.atom (.str s)) := by
  intro h
  have hread : (Yyjson.sample [(spelledText, .obj spelledMembers)]).read spelledText =
      some (.obj spelledMembers) := rfl
  obtain ⟨b, out, j, hfrom, -, -, hstrings⟩ := h _ Json.AnyString _ _
    (Yyjson.sample_faithful (by decide) (by decide) (by decide)) hread (by decide) (by decide)
    (by decide)
  obtain ⟨o, hfollow, htype, -⟩ := hstrings [] [97] [65, 66] (by decide) rfl
  obtain rfl : 0 = o := by simpa [Buffer.follow] using hfollow
  rw [fromJsonString, hread] at hfrom
  have hbytes : (fromYyjsonVal (.sample [(spelledText, .obj spelledMembers)]) (.obj spelledMembers)
      .empty 0).2.getType 0 [97] = .ok (some .bytes) := by decide +kernel
  rw [Except.ok.inj hfrom] at hbytes
  exact absurd (htype.symm.trans hbytes) (by decide)

end Lite3
