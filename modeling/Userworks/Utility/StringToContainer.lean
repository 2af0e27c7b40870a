import Mathlib.Data.Finmap
import Userworks.Lib.Splitting
import Userworks.Utility.Stoi

/-!
Texts of `key=value` items, `src/utility/string_to_container.h`. Trimming and
splitting are those of Boost: parameters with the laws that are documented.
-/
namespace Userworks.E16

/-! ### The source -/

abbrev Container := Finmap fun _ : Text => Text

def Container.emplace (ret : Container) (key value : Text) : Container :=
  if key ∈ ret then ret else ret.insert key value

def isAnyOf (delim : Text) (c : Char) : Bool := (data delim).contains c

section

-- `boost::trim_if`, and `boost::split` with `token_compress_on`.
variable (trimIf : (Char → Bool) → Text → Text) (split : (Char → Bool) → Text → List Text)

def toSequence (line : Text) (delim : Text := ", ".toList) : List Text :=
  let l := data line
  let l := trimIf isspace l
  split (isAnyOf delim) l

/-- Both arguments of `emplace` are `s[0]`. -/
def toMap (line : Text) (comma : Text := ", ".toList) (eq : Text := "= ".toList) : Container :=
  let l := trimIf isspace (data line)
  let v := toSequence trimIf split l comma
  v.foldl (fun ret x =>
    match split (isAnyOf eq) (trimIf isspace x) with
    | [s, _] => ret.emplace s s
    | _ => ret) ∅

end

/-! ### Texts of a map -/

/-- Neither blank nor comma nor equals sign. -/
structure IsPlain (text : Text) : Prop where
  blank : ' ' ∉ text
  comma : ',' ∉ text
  eq : '=' ∉ text

structure IsWord (word : Text) : Prop extends IsPlain word where
  ne_nil : word ≠ []

/-- Items joined by commas with any number of blanks around them. -/
inductive Joined : List (Σ _ : Text, Text) → Text → Prop where
  | nil : Joined [] []
  | single (key value : Text) : Joined [⟨key, value⟩] (key ++ '=' :: value)
  | cons (key value : Text) (before behind : Nat) {e : Σ _ : Text, Text}
      {es : List (Σ _ : Text, Text)} {text : Text} : Joined (e :: es) text →
      Joined (⟨key, value⟩ :: e :: es) ((key ++ '=' :: value) ++
        ((List.replicate before ' ' ++ ',' :: List.replicate behind ' ') ++ text))

/-- The entries of the map in any order. -/
def IsTextOf (m : Container) (text : Text) : Prop :=
  ∃ es : List (Σ _ : Text, Text), es = m.entries ∧ Joined es text

/-! ### What the container holds -/

/-- The key that an item is entered with. -/
def itemKey (x : Text) : Option Text :=
  match splitRuns (isAnyOf "= ".toList) false (trimEnds isspace x) with
  | [s, _] => some s
  | _ => none

def keys (text : Text) : List Text :=
  (splitRuns (isAnyOf ", ".toList) false
    (trimEnds isspace (data (trimEnds isspace (data text))))).filterMap itemKey

theorem toMap_eq_foldl (text : Text) :
    toMap trimEnds (fun p => splitRuns p false) text =
      (keys text).foldl (fun ret key => ret.emplace key key) ∅ := by
  rw [keys, List.foldl_filterMap, toMap]
  congr 1
  funext ret x
  rw [itemKey]
  generalize splitRuns (isAnyOf "= ".toList) false (trimEnds isspace x) = parts
  match parts with
  | [] | [_] | [_, _] | _ :: _ :: _ :: _ => rfl

/-- The container holds the keys, each as its own value. -/
def HoldsKeys (ret : Container) (ks : List Text) : Prop :=
  ∀ key value, value ∈ ret.lookup key ↔ key ∈ ks ∧ value = key

theorem HoldsKeys.emplace {ret : Container} {ks : List Text} (h : HoldsKeys ret ks) (key : Text) :
    HoldsKeys (ret.emplace key key) (ks ++ [key]) := by
  intro key' value
  rw [List.mem_append, List.mem_singleton, Container.emplace]
  by_cases hmem : key ∈ ret
  · obtain ⟨value', hvalue'⟩ := Finmap.mem_iff.mp hmem
    have hkey := ((h key value').mp hvalue').1
    rw [if_pos hmem, h key' value]
    constructor
    · intro hold
      exact ⟨Or.inl hold.1, hold.2⟩
    · intro hnew
      refine ⟨?_, hnew.2⟩
      cases hnew.1 with
      | inl hold => exact hold
      | inr heq => exact heq ▸ hkey
  · rw [if_neg hmem]
    by_cases hkey : key' = key
    · subst hkey
      rw [Finmap.lookup_insert, Option.mem_some_iff]
      exact ⟨fun heq => ⟨Or.inr rfl, heq.symm⟩, fun heq => heq.2.symm⟩
    · rw [Finmap.lookup_insert_of_ne _ hkey, h key' value, or_iff_left hkey]

theorem HoldsKeys.foldl {ret : Container} {ks : List Text} (h : HoldsKeys ret ks)
    (more : List Text) :
    HoldsKeys (more.foldl (fun ret key => ret.emplace key key) ret) (ks ++ more) := by
  induction more generalizing ret ks with
  | nil => exact (List.append_nil ks).symm ▸ h
  | cons key more ih =>
      have hrest := ih (h.emplace key)
      rw [List.append_assoc, List.singleton_append] at hrest
      exact hrest

theorem holdsKeys_toMap (text : Text) :
    HoldsKeys (toMap trimEnds (fun p => splitRuns p false) text) (keys text) := by
  have hempty : HoldsKeys ∅ [] := by
    intro key value
    simp
  rw [toMap_eq_foldl]
  exact hempty.foldl (keys text)

/-- The container is a map exactly if they have the same entries. -/
theorem HoldsKeys.eq_iff {ret m : Container} {ks : List Text} (h : HoldsKeys ret ks) :
    ret = m ↔ ∀ key value, ⟨key, value⟩ ∈ m.entries ↔ key ∈ ks ∧ value = key := by
  constructor
  · intro heq key value
    rw [← heq, ← Finmap.mem_lookup_iff]
    exact h key value
  · intro hentries
    apply Finmap.ext_lookup
    intro key
    apply Option.ext
    intro value
    exact (h key value).trans ((hentries key value).symm.trans Finmap.mem_lookup_iff.symm)

/-! ### Keys as they are read -/

theorem isAnyOf_pair {delim : Text} {a b c : Char} (h : data delim = [a, b]) :
    isAnyOf delim c = true ↔ c = a ∨ c = b := by
  rw [isAnyOf, h, List.contains_iff_mem, List.mem_cons, List.mem_singleton]

theorem not_isAnyOf_pair {delim text : Text} {a b : Char} (h : data delim = [a, b])
    (ha : a ∉ text) (hb : b ∉ text) : ∀ c ∈ text, isAnyOf delim c = false := by
  intro c hc
  apply Bool.eq_false_iff.mpr
  intro hsep
  cases (isAnyOf_pair h).mp hsep with
  | inl heq => exact ha (heq ▸ hc)
  | inr heq => exact hb (heq ▸ hc)

theorem data_comma : data ", ".toList = [',', ' '] := rfl

theorem data_eq : data "= ".toList = ['=', ' '] := rfl

theorem IsPlain.not_comma {text : Text} (h : IsPlain text) :
    ∀ c ∈ text, isAnyOf ", ".toList c = false := not_isAnyOf_pair data_comma h.comma h.blank

theorem IsPlain.not_eq {text : Text} (h : IsPlain text) :
    ∀ c ∈ text, isAnyOf "= ".toList c = false := not_isAnyOf_pair data_eq h.eq h.blank

theorem itemKey_prefix {x key : Text} (h : itemKey x = some key) :
    key <+: trimEnds isspace x := by
  have hhead := head_splitRuns (isAnyOf "= ".toList) (trimEnds isspace x)
  rw [itemKey] at h
  split at h
  · rename_i s _ hparts
    cases h
    rw [hparts] at hhead
    rw [Option.some.inj hhead]
    exact List.takeWhile_prefix _
  · cases h

theorem ne_nul_of_mem_data {text : Text} {c : Char} (h : c ∈ data text) : c ≠ '\x00' := by
  rw [data] at h
  have hne := List.mem_takeWhile_imp h
  exact of_decide_eq_true hne

/-- A key that is read has no blank in front and no zero in it. -/
theorem keys_spec {text key : Text} (h : key ∈ keys text) :
    '\x00' ∉ key ∧ ∀ c ∈ key.head?, isspace c = false := by
  obtain ⟨x, hx, hkey⟩ := List.mem_filterMap.mp h
  have hstart := itemKey_prefix hkey
  refine ⟨fun hnul => ?_, head_of_prefix hstart head_trimEnds⟩
  have hmem := mem_of_mem_splitRuns hx (mem_of_mem_trimEnds (hstart.subset hnul))
  exact ne_nul_of_mem_data (mem_of_mem_trimEnds hmem) rfl

/-! ### Texts whose keys are read -/

/-- A key that is read as it stands. -/
structure IsKey (key : Text) : Prop extends IsWord key where
  nul : '\x00' ∉ key
  head : ∀ c ∈ key.head?, isspace c = false

/-- What may stand behind the equals sign. -/
structure IsRest (rest : Text) : Prop extends IsPlain rest where
  nul : '\x00' ∉ rest

/-- A text of items with the given keys. -/
inductive Items : List Text → Text → Prop where
  | single (key rest : Text) : IsKey key → IsRest rest → Items [key] (key ++ '=' :: rest)
  | cons (key rest : Text) (before behind : Nat) {next : Text} {ks : List Text} {text : Text} :
      IsKey key → IsRest rest → Items (next :: ks) text →
      Items (key :: next :: ks) ((key ++ '=' :: rest) ++
        ((List.replicate before ' ' ++ ',' :: List.replicate behind ' ') ++ text))

theorem IsRest.rdropWhile {rest : Text} (h : IsRest rest) : IsRest (rest.rdropWhile isspace) := by
  have hsub := (List.rdropWhile_prefix isspace rest).subset
  exact ⟨⟨fun hc => h.blank (hsub hc), fun hc => h.comma (hsub hc), fun hc => h.eq (hsub hc)⟩,
    fun hc => h.nul (hsub hc)⟩

theorem IsKey.head_append {key : Text} (h : IsKey key) (rest : Text) :
    ∃ c tail, key ++ rest = c :: tail ∧ isspace c = false ∧ isAnyOf ", ".toList c = false := by
  cases key with
  | nil => exact absurd rfl h.ne_nil
  | cons c key =>
      exact ⟨c, key ++ rest, rfl, h.head c rfl, h.not_comma c List.mem_cons_self⟩

theorem Items.head {ks : List Text} {text : Text} (h : Items ks text) :
    ∃ c rest, text = c :: rest ∧ isspace c = false ∧ isAnyOf ", ".toList c = false := by
  cases h with
  | single key rest hkey _ => exact hkey.head_append _
  | cons key rest before behind hkey _ _ =>
      rw [List.append_assoc]
      exact hkey.head_append _

/-- Trimming cuts what stands behind the last equals sign. -/
theorem Items.trimEnds {ks : List Text} {text : Text} (h : Items ks text) :
    Items ks (trimEnds isspace text) := by
  have hright : Items ks (text.rdropWhile isspace) := by
    induction h with
    | single key rest hkey hrest =>
        rw [rdropWhile_append_cons key (by decide)]
        exact .single key _ hkey hrest.rdropWhile
    | @cons key rest before behind next ks text hkey hrest htext ih =>
        obtain ⟨c, tail, rfl, hc, -⟩ := htext.head
        have hend := rdropWhile_append_cons [] hc tail
        rw [List.nil_append, List.nil_append] at hend
        rw [← List.append_assoc, rdropWhile_append_cons _ hc, List.append_assoc, ← hend]
        exact .cons key rest before behind hkey hrest ih
  obtain ⟨c, tail, rfl, hc, -⟩ := h.head
  have hhead : ∀ a ∈ (c :: tail).head?, isspace a = false := fun a ha => Option.some.inj ha ▸ hc
  rw [Userworks.trimEnds, dropWhile_of_head hhead]
  exact hright

theorem Items.data {ks : List Text} {text : Text} (h : Items ks text) : data text = text := by
  have hnul : '\x00' ∉ text := by
    induction h with
    | single key rest hkey hrest => simp [hkey.nul, hrest.nul]
    | cons key rest before behind hkey hrest _ ih => simp [hkey.nul, hrest.nul, ih]
  rw [E16.data, List.takeWhile_eq_self_iff]
  intro c hc
  exact decide_eq_true fun heq => hnul (heq ▸ hc)

theorem itemKey_item {key rest : Text} (hkey : IsKey key) (hrest : IsRest rest) :
    itemKey (key ++ '=' :: rest) = some key := by
  have htrim : trimEnds isspace (key ++ '=' :: rest) =
      key ++ (['='] ++ rest.rdropWhile isspace) := by
    have hhead : ∀ c ∈ (key ++ '=' :: rest).head?, isspace c = false := by
      rw [List.head?_append_of_ne_nil _ hkey.ne_nil]
      exact hkey.head
    rw [trimEnds, dropWhile_of_head hhead, rdropWhile_append_cons key (by decide)]
    rfl
  have hvalue := hrest.rdropWhile.not_eq
  have hsplit := isSplit_splitRuns.run (isAnyOf "= ".toList) key ['='] (rest.rdropWhile isspace)
    hkey.not_eq (List.cons_ne_nil _ _)
    (fun c hc => (isAnyOf_pair data_eq).mpr (Or.inl (List.mem_singleton.mp hc)))
    (fun c hc => hvalue c (List.mem_of_mem_head? hc))
  rw [isSplit_splitRuns.part _ _ hvalue] at hsplit
  rw [itemKey, htrim, hsplit]

theorem not_isAnyOf_item {key rest : Text} (hkey : IsKey key) (hrest : IsRest rest) :
    ∀ c ∈ key ++ '=' :: rest, isAnyOf ", ".toList c = false := by
  apply not_isAnyOf_pair data_comma
  · simp [hkey.comma, hrest.comma]
  · simp [hkey.blank, hrest.blank]

theorem Items.filterMap_itemKey {ks : List Text} {text : Text} (h : Items ks text) :
    (splitRuns (isAnyOf ", ".toList) false text).filterMap itemKey = ks := by
  induction h with
  | single key rest hkey hrest =>
      rw [isSplit_splitRuns.part _ _ (not_isAnyOf_item hkey hrest), List.filterMap_cons_some
        (itemKey_item hkey hrest)]
      rfl
  | @cons key rest before behind next ks text hkey hrest htext ih =>
      have hsep : ∀ c ∈ List.replicate before ' ' ++ ',' :: List.replicate behind ' ',
          isAnyOf ", ".toList c = true := by
        intro c hc
        apply (isAnyOf_pair data_comma).mpr
        simp only [List.mem_append, List.mem_cons, List.mem_replicate] at hc
        tauto
      have hbehind : ∀ c ∈ text.head?, isAnyOf ", ".toList c = false := by
        obtain ⟨first, tail, rfl, -, hfirst⟩ := htext.head
        exact fun c hc => Option.some.inj hc ▸ hfirst
      rw [isSplit_splitRuns.run _ _ _ _ (not_isAnyOf_item hkey hrest) (by simp) hsep hbehind,
        List.filterMap_cons_some (itemKey_item hkey hrest), ih]

theorem Items.keys_eq {ks : List Text} {text : Text} (h : Items ks text) : keys text = ks := by
  rw [keys, h.data, h.trimEnds.data]
  exact h.trimEnds.trimEnds.filterMap_itemKey

/-! ### The round trip -/

/-- The entries that come back as they are: the value is the key, which has no white space in
front and no zero. -/
def ComesBack (e : Σ _ : Text, Text) : Prop :=
  e.2 = e.1 ∧ '\x00' ∉ e.1 ∧ ∀ c ∈ e.1.head?, isspace c = false

theorem ComesBack.isKey {e : Σ _ : Text, Text} (h : ComesBack e) (hword : IsWord e.1) :
    IsKey e.1 := { hword with nul := h.2.1, head := h.2.2 }

theorem ComesBack.isRest {e : Σ _ : Text, Text} (h : ComesBack e) (hword : IsWord e.2) :
    IsRest e.2 :=
  ⟨hword.toIsPlain, h.1 ▸ h.2.1⟩

theorem Joined.items {es : List (Σ _ : Text, Text)} {text : Text} (h : Joined es text)
    (hne : es ≠ []) (hwords : ∀ e ∈ es, IsWord e.1 ∧ IsWord e.2)
    (hback : ∀ e ∈ es, ComesBack e) : Items (es.map Sigma.fst) text := by
  induction h with
  | nil => exact absurd rfl hne
  | single key value =>
      have he := hback _ List.mem_cons_self
      obtain ⟨hkey, hvalue⟩ := hwords _ List.mem_cons_self
      exact .single key value (he.isKey hkey) (he.isRest hvalue)
  | @cons key value before behind e es text _ ih =>
      have he := hback _ List.mem_cons_self
      obtain ⟨hkey, hvalue⟩ := hwords _ List.mem_cons_self
      exact .cons key value before behind (he.isKey hkey) (he.isRest hvalue)
        (ih (List.cons_ne_nil e es) (fun e he => hwords e (List.mem_cons_of_mem _ he))
          fun e he => hback e (List.mem_cons_of_mem _ he))

theorem Joined.keys_eq {es : List (Σ _ : Text, Text)} {text : Text} (h : Joined es text)
    (hwords : ∀ e ∈ es, IsWord e.1 ∧ IsWord e.2) (hback : ∀ e ∈ es, ComesBack e) :
    keys text = es.map Sigma.fst := by
  by_cases hes : es = []
  · subst hes
    cases h
    rfl
  · exact (h.items hes hwords hback).keys_eq

/-- `ToMap` gives back a map from its text exactly if each of its entries comes back. -/
theorem toMap_eq_iff {trimIf : (Char → Bool) → Text → Text}
    {split : (Char → Bool) → Text → List Text} (htrim : IsTrim trimIf) (hsplit : IsSplit split)
    {m : Container} {text : Text} (hwords : ∀ e ∈ m.entries, IsWord e.1 ∧ IsWord e.2)
    (htext : IsTextOf m text) :
    toMap trimIf split text = m ↔ ∀ e ∈ m.entries, ComesBack e := by
  obtain ⟨es, hes, hjoined⟩ := htext
  rw [htrim.eq, hsplit.eq, (holdsKeys_toMap text).eq_iff, ← hes]
  simp only [← hes, Multiset.mem_coe] at hwords ⊢
  constructor
  · intro hentries e he
    obtain ⟨hkey, hvalue⟩ := (hentries e.1 e.2).mp he
    exact ⟨hvalue, keys_spec hkey⟩
  · intro hback key value
    rw [hjoined.keys_eq hwords hback, List.mem_map]
    constructor
    · intro he
      exact ⟨⟨⟨key, value⟩, he, rfl⟩, (hback _ he).1⟩
    · rintro ⟨⟨e, he, rfl⟩, rfl⟩
      have hself : (⟨e.1, e.1⟩ : Σ _ : Text, Text) = e :=
        Sigma.ext rfl (heq_of_eq (hback e he).1.symm)
      rw [hself]
      exact he

instance (word : Text) : Decidable (IsWord word) :=
  decidable_of_iff ((' ' ∉ word ∧ ',' ∉ word ∧ '=' ∉ word) ∧ word ≠ [])
    ⟨fun h => ⟨⟨h.1.1, h.1.2.1, h.1.2.2⟩, h.2⟩, fun h => ⟨⟨h.blank, h.comma, h.eq⟩, h.ne_nil⟩⟩

/-- The map from `run` and `id` to themselves. -/
def twoEntries : Container :=
  ((∅ : Container).insert "id".toList "id".toList).insert "run".toList "run".toList

theorem toMap_twoEntries :
    toMap trimEnds (fun p => splitRuns p false) "run=run ,  id=id".toList = twoEntries := by
  apply (toMap_eq_iff isTrim_trimEnds isSplit_splitRuns (m := twoEntries) ?_ ?_).mpr
  · intro e he
    have hentries : e ∈ [(⟨"run".toList, "run".toList⟩ : Σ _ : Text, Text),
        ⟨"id".toList, "id".toList⟩] := he
    cases List.mem_cons.mp hentries with
    | inl heq =>
        subst heq
        exact ⟨rfl, by decide, fun c hc => Option.some.inj hc ▸ by decide⟩
    | inr hid =>
        rw [List.mem_singleton.mp hid]
        exact ⟨rfl, by decide, fun c hc => Option.some.inj hc ▸ by decide⟩
  · decide
  · exact ⟨[⟨"run".toList, "run".toList⟩, ⟨"id".toList, "id".toList⟩], rfl,
      .cons _ _ 1 2 (.single _ _)⟩

/-- The map from `host` to `daq`. -/
def hostEntry : Container := (∅ : Container).insert "host".toList "daq".toList

/-- The value is lost: the key is entered in its place. -/
theorem not_toMap_round_trip : ¬∀ (m : Container) (text : Text),
    (∀ e ∈ m.entries, IsWord e.1 ∧ IsWord e.2) → IsTextOf m text →
      toMap trimEnds (fun p => splitRuns p false) text = m := by
  intro hall
  have hhost := hall hostEntry "host=daq".toList (by decide)
    ⟨[⟨"host".toList, "daq".toList⟩], rfl, .single _ _⟩
  revert hhost
  decide

end Userworks.E16
