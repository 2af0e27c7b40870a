import Mathlib.Data.List.TakeWhile
import Userworks.Utility.RegisterMapOwners

/-!
Which documents are parsed right. The four walkers share one current key, and it
is not put back when a walker returns: after an application that ends in an empty
`constants` the next one is taken for groups of constants, and after a walk that
ends in an empty `registers` the next walk takes the applications for registers.
-/
namespace Userworks.E16

open RegisterMapParser

variable {asInt : Text → Option Int}

/-! ### Names in keys -/

/-- A name that can be told from the rest of a key. -/
def PlainName (name : Text) : Prop := ':' ∉ name ∧ '\x00' ∉ name

theorem data_of_plain {name : Text} (h : PlainName name) : data name = name := by
  rw [data, List.takeWhile_eq_self_iff]
  intro c hc
  simp only [decide_eq_true_eq]
  rintro rfl
  exact h.2 hc

theorem eq_of_append_cons {x x' z z' : Text} {c : Char} (hx : c ∉ x) (hx' : c ∉ x')
    (h : x ++ c :: z = x' ++ c :: z') : x = x' := by
  induction x generalizing x' with
  | nil =>
      cases x' with
      | nil => rfl
      | cons d x' =>
          injection h with hd
          exact absurd (hd ▸ List.mem_cons_self) hx'
  | cons d x ih =>
      cases x' with
      | nil =>
          injection h with hd
          exact absurd (hd ▸ List.mem_cons_self) hx
      | cons d' x' =>
          injection h with hd htail
          rw [hd, ih (fun hc => hx (List.mem_cons_of_mem d hc))
            (fun hc => hx' (List.mem_cons_of_mem d' hc)) htail]

theorem eq_of_ownedBy {app app' key : Text} (happ : PlainName app) (happ' : PlainName app')
    (h : OwnedBy app key) (h' : OwnedBy app' key) : app = app' := by
  obtain ⟨rest, hrest⟩ := h
  obtain ⟨rest', hrest'⟩ := h'
  rw [hrest', data_of_plain happ, data_of_plain happ', List.append_assoc,
    List.append_assoc] at hrest
  exact (eq_of_append_cons happ'.1 happ.1 (List.append_cancel_left hrest)).symm

/-! ### Skipped applications -/

theorem skipped_subset (key : Text) (apps : List Application) :
    ∀ a ∈ skipped key apps, a ∈ apps := by
  induction apps generalizing key with
  | nil => exact fun a ha => ha
  | cons b rest ih =>
      intro a ha
      cases List.mem_append.mp ha with
      | inl hhead =>
          split at hhead
          · rw [List.mem_singleton.mp hhead]
            exact List.mem_cons_self
          · cases hhead
      | inr hrest => exact List.mem_cons_of_mem b (ih _ a hrest)

theorem readInFull_mem (key : Text) (apps : List Application) :
    ∀ a ∈ readInFull key apps, a ∈ apps := by
  induction apps generalizing key with
  | nil => exact fun a ha => ha
  | cons b rest ih =>
      intro a ha
      cases List.mem_append.mp ha with
      | inl hhead =>
          split at hhead
          · cases hhead
          · rw [List.mem_singleton.mp hhead]
            exact List.mem_cons_self
      | inr hrest => exact List.mem_cons_of_mem b (ih _ a hrest)

theorem name_ne_of_skipped {key : Text} {apps : List Application}
    (hnodup : (apps.map Application.name).Nodup) {a b : Application} (ha : a ∈ skipped key apps)
    (hb : b ∈ readInFull key apps) : b.name ≠ a.name := by
  induction apps generalizing key with
  | nil => cases ha
  | cons c rest ih =>
      rw [List.map_cons, List.nodup_cons] at hnodup
      have hfirst : ∀ d ∈ rest, d.name ≠ c.name := by
        intro d hd heq
        exact hnodup.1 (List.mem_map.mpr ⟨d, hd, heq⟩)
      rw [skipped] at ha
      rw [readInFull] at hb
      by_cases hkey : key = "constants".toList
      · rw [if_pos hkey] at ha hb
        cases List.mem_append.mp ha with
        | inl h =>
            rw [List.mem_singleton.mp h]
            exact hfirst b (readInFull_mem _ rest b hb)
        | inr h => exact ih hnodup.2 h hb
      · rw [if_neg hkey] at ha hb
        cases List.mem_append.mp hb with
        | inl h =>
            rw [List.mem_singleton.mp h]
            exact (hfirst a (skipped_subset _ rest a ha)).symm
        | inr h => exact ih hnodup.2 ha h

/-! ### What parsing a document right asks for -/

theorem walks_within {apps : List Application} (hne : apps ≠ []) (times : Nat)
    {p q : RegisterMapParser}
    (h : Within ((readInFull "applications".toList apps).map Application.name) p)
    (hq : parseApps (apps.map Application.node) times p = .ok q) :
    Within ((readInFull "applications".toList apps).map Application.name) q := by
  induction times generalizing p with
  | zero =>
      cases hq
      exact h
  | succ times ih =>
      rw [parseApps] at hq
      obtain ⟨s, hs, hrest⟩ := bind_ok hq
      refine ih ?_ hrest
      by_cases hregisters : p.fKey = "registers".toList
      · rw [parseApp_registers _ p hregisters] at hs
        exact parseRegisterItems_keeps (stable_within _) _ p s h hs
      · rw [parseApp, if_neg hregisters] at hs
        obtain ⟨s', hs', hwithin⟩ := walk_within apps p h.regs h.consts (fun _ => h.app)
          (fun a ha => List.mem_map.mpr ⟨a, readInFull_subset _ apps a ha, rfl⟩) hne
        rw [hs] at hs'
        cases hs'
        exact hwithin

/-- A skipped application must have nothing to declare: its entries belong to no other. -/
theorem follows_of_holds {apps : List Application} (hplain : ∀ a ∈ apps, PlainName a.name)
    (hnodup : (apps.map Application.name).Nodup) {q : RegisterMapParser}
    (hwithin : Within ((readInFull "applications".toList apps).map Application.name) q)
    (hregs : Holds q.fRegisters (declaredRegisters apps))
    (hconsts : Holds q.fConstants (declaredConstants apps)) :
    ∀ a ∈ skipped "applications".toList apps, a.DeclaresNothing := by
  intro a ha
  have hmem := skipped_subset _ apps a ha
  have hforeign : ∀ key, OwnedBy a.name key →
      ¬ ∃ app ∈ (readInFull "applications".toList apps).map Application.name, OwnedBy app key := by
    rintro key hkey ⟨_, happ, howned⟩
    obtain ⟨b, hb, rfl⟩ := List.mem_map.mp happ
    exact name_ne_of_skipped hnodup ha hb (eq_of_ownedBy
      (hplain b (readInFull_mem _ apps b hb)) (hplain a hmem) howned hkey)
  constructor
  · rw [List.eq_nil_iff_forall_not_mem]
    intro e he
    have hin := mem_of_lookup ((hregs e.1 e.2).mpr (List.mem_flatMap.mpr ⟨a, hmem, he⟩))
    exact hforeign e.1 (ownedBy_declaresRegisters a e he) (hwithin.regs _ hin)
  · rw [List.eq_nil_iff_forall_not_mem]
    intro e he
    have hin := mem_of_lookup ((hconsts e.1 e.2).mpr (List.mem_flatMap.mpr ⟨a, hmem, he⟩))
    exact hforeign e.1 (ownedBy_declaresConstants a e he) (hwithin.consts _ hin)

theorem parseRegisterItems_ok {items : List Node} {p s : RegisterMapParser}
    (h : parseRegisterItems items p = .ok s) :
    ∀ n ∈ items, ∃ q q', parseRegister n q = .ok q' := by
  induction items generalizing p with
  | nil =>
      intro n hn
      cases hn
  | cons n rest ih =>
      rw [parseRegisterItems] at h
      obtain ⟨q, hq, hrest⟩ := bind_ok h
      intro m hm
      cases List.mem_cons.mp hm with
      | inl heq =>
          subst heq
          exact ⟨p, q, hq⟩
      | inr hmem => exact ih hrest m hmem

/-- The second walk of a document that is parsed to its end, and what follows it. -/
theorem second_walk {apps : List Application} (hmany : 2 ≤ apps.length)
    (hfollows : ∀ a ∈ skipped "applications".toList apps, a.DeclaresNothing)
    {p q : RegisterMapParser} (hkey : p.fKey = "applications".toList) (hregs : p.fRegisters = [])
    (hconsts : p.fConstants = [])
    (hq : parseApps (apps.map Application.node) apps.length p = .ok q) :
    ∃ first second times, Settled apps first ∧
      parseApp (.seq (apps.map Application.node)) first = .ok second ∧
      parseApps (apps.map Application.node) times second = .ok q := by
  have hne : apps ≠ [] := by
    rintro rfl
    cases hmany
  obtain ⟨first, hfirst, hsettled⟩ := first_walk hne hfollows hkey hregs hconsts
  obtain ⟨times, htimes⟩ := Nat.exists_eq_add_of_le' hmany
  rw [htimes, parseApps, hfirst] at hq
  have hrest : parseApps (apps.map Application.node) (times + 1) first = .ok q := hq
  rw [parseApps] at hrest
  obtain ⟨second, hsecond, hend⟩ := bind_ok hrest
  exact ⟨first, second, times, hsettled, hsecond, hend⟩

section

variable {apps : List Application} {first second q : RegisterMapParser} {times : Nat}
  (hsettled : Settled apps first)
  (hsecond : parseApp (.seq (apps.map Application.node)) first = .ok second)
  (hend : parseApps (apps.map Application.node) times second = .ok q)

include hsettled hsecond hend

/-- What the second walk puts in a table is there at the end, so it must be declared. -/
theorem strayKeys_declared (hleft : leftOver [] apps = "constants".toList)
    (hfollows : ∀ a ∈ skipped "applications".toList apps, a.DeclaresNothing)
    (hholds : Holds q.fConstants (declaredConstants apps)) :
    ∀ a ∈ apps.head?, ∀ k ∈ a.strayKeys (lastRead "applications".toList [] apps),
      k ∈ (declaredConstants apps).map Prod.fst := by
  intro a ha k hk
  cases apps with
  | nil => cases ha
  | cons b rest =>
      cases ha
      obtain ⟨second', es, hok, hreads, hes⟩ := walk_constants (hsettled.key.trans hleft) hfollows
      rw [hsecond] at hok
      cases hok
      have hmem : k ∈ es.map Prod.fst := by
        rw [hes, hsettled.app]
        exact hk
      have hthere : (second.fConstants.lookup k).isSome := by
        rw [hreads.consts]
        apply isSome_lookup_emplaceAll
        rw [List.map_append]
        exact List.mem_append_left _ hmem
      exact hholds.declared (parseApps_keeps (stableApp_constant k) _ times second q hthere hend)

theorem strayRegisters_declared (hleft : leftOver [] apps = "registers".toList)
    (hholds : Holds q.fRegisters (declaredRegisters apps)) :
    ∀ a ∈ apps, a.Readable ∧ ∀ e ∈ a.strayRegisters (lastRead "applications".toList [] apps),
      e.1 ∈ (declaredRegisters apps).map Prod.fst := by
  intro a ha
  rw [parseApp_registers _ first (hsettled.key.trans hleft)] at hsecond
  have hreadable : ∀ b ∈ apps, b.Readable := by
    intro b hb
    obtain ⟨r, r', hr⟩ := parseRegisterItems_ok hsecond b.node (List.mem_map.mpr ⟨b, hb, rfl⟩)
    exact application_readable_of_ok b hr
  obtain ⟨second', hok, hreads⟩ := strays_applications apps first hreadable
  rw [hsecond] at hok
  cases hok
  refine ⟨hreadable a ha, ?_⟩
  intro e he
  have hthere : (second.fRegisters.lookup e.1).isSome := by
    rw [hreads.regs]
    apply isSome_lookup_emplaceAll
    apply mem_keys
    rw [hsettled.app]
    exact List.mem_flatMap.mpr ⟨a, ha, he⟩
  exact hholds.declared (parseApps_keeps (stableApp_register e.1) _ times second q hthere hend)

end

theorem layout_of_holds {apps : List Application}
    (hfollows : ∀ a ∈ skipped "applications".toList apps, a.DeclaresNothing)
    {p q : RegisterMapParser} (hkey : p.fKey = "applications".toList) (hregs : p.fRegisters = [])
    (hconsts : p.fConstants = [])
    (hq : parseApps (apps.map Application.node) apps.length p = .ok q)
    (hholds : Holds q.fRegisters (declaredRegisters apps))
    (hholds' : Holds q.fConstants (declaredConstants apps)) : Layout apps := by
  refine ⟨hfollows, ?_, ?_⟩
  · intro hmany hleft
    obtain ⟨first, second, times, hsettled, hsecond, hend⟩ :=
      second_walk hmany hfollows hkey hregs hconsts hq
    exact strayKeys_declared hsettled hsecond hend hleft hfollows hholds'
  · intro hmany hleft
    obtain ⟨first, second, times, hsettled, hsecond, hend⟩ :=
      second_walk hmany hfollows hkey hregs hconsts hq
    exact strayRegisters_declared hsettled hsecond hend hleft hholds

theorem layout_of_attributed {doc : Document asInt}
    (hplain : ∀ a ∈ doc.applications, PlainName a.name) (h : doc.Attributed) :
    Layout doc.applications := by
  obtain ⟨p, hkey, hregs, hconsts, hok, hfault⟩ := parse_document doc
  obtain ⟨s, hs, hholds, hholds'⟩ := h
  cases hq : parseApps (doc.applications.map Application.node) doc.applications.length p with
  | error fault =>
      rw [hfault fault hq] at hs
      cases hs
  | ok q =>
      obtain ⟨s', hs', hsame⟩ := hok q hq
      rw [hs] at hs'
      cases hs'
      rw [hsame.1] at hholds
      rw [hsame.2] at hholds'
      refine layout_of_holds ?_ hkey hregs hconsts hq hholds hholds'
      by_cases hne : doc.applications = []
      · rw [hne]
        intro a ha
        cases ha
      obtain ⟨times, htimes⟩ := Nat.exists_eq_add_one_of_ne_zero
        (List.length_pos_of_ne_nil hne).ne'
      rw [htimes, parseApps] at hq
      obtain ⟨first, hfirst, hrest⟩ := bind_ok hq
      rw [parseApp, if_neg (by rw [hkey]; decide)] at hfirst
      obtain ⟨first', hfirst', hwithin⟩ := @walk_within
        ((readInFull "applications".toList doc.applications).map Application.name)
        doc.applications p (by rw [hregs]; intro e he; cases he)
        (by rw [hconsts]; intro e he; cases he)
        (by rw [hkey]; intro heq; exact absurd heq (by decide))
        (by rw [hkey]; exact fun a ha => List.mem_map.mpr ⟨a, ha, rfl⟩) hne
      rw [hfirst] at hfirst'
      cases hfirst'
      exact follows_of_holds hplain doc.names_nodup (walks_within hne times hwithin hrest)
        hholds hholds'

/-- Every entry is put down to its own application when no walker is misled by the key it is
left with; and where the names of applications can be told from the rest of a key, only then. -/
theorem attributed_iff_layout (asInt : Text → Option Int) (doc : Document asInt) :
    (Layout doc.applications ∧ doc.Consistent → doc.Attributed) ∧
      ((∀ a ∈ doc.applications, PlainName a.name) →
        doc.Attributed → Layout doc.applications ∧ doc.Consistent) := by
  constructor
  · rintro ⟨hlayout, hconsistent⟩
    exact attributed_of_layout hlayout hconsistent
  · intro hplain h
    have hlayout := layout_of_attributed hplain h
    obtain ⟨p, -, hregs, hconsts⟩ := h
    exact ⟨hlayout, hregs.consistent, hconsts.consistent⟩

/-- An empty list of registers that is not the last thing of the document does no harm. -/
def emptyRegistersThenPort : Document (fun _ => none) where
  before := []
  applications := [
    { name := "A".toList
      fields := [.registers [⟨"ctrl".toList, "RW".toList, none, "0x0".toList, none⟩]]
      keys_nodup := by decide
      registers_distinct := by simp [AppField.RegistersDistinct] },
    { name := "B".toList
      fields := [.registers [], .port "4660".toList]
      keys_nodup := by decide
      registers_distinct := by simp [AppField.RegistersDistinct] }]
  after := []
  word_size := by simp
  names_nodup := by decide

theorem attributed_emptyRegistersThenPort : emptyRegistersThenPort.Attributed := by
  apply (attributed_iff_layout _ emptyRegistersThenPort).1
  have hleft : leftOver [] emptyRegistersThenPort.applications = "port".toList := rfl
  have hnone : skipped "applications".toList emptyRegistersThenPort.applications = [] := rfl
  refine ⟨⟨?_, ?_, ?_⟩, ?_, ?_⟩
  · rw [hnone]
    intro a ha
    cases ha
  · rw [hleft]
    intro _ h
    exact absurd h (by decide)
  · rw [hleft]
    intro _ h
    exact absurd h (by decide)
  · exact consistent_of_nodup (by decide +kernel)
  · exact consistent_of_nodup (by decide +kernel)

/-- Two applications; the last one has an empty list of registers. -/
def emptyRegistersLast : Document (fun _ => none) where
  before := []
  applications := [
    { name := "A".toList
      fields := [.registers [⟨"ctrl".toList, "RW".toList, none, "0x0".toList, none⟩]]
      keys_nodup := by decide
      registers_distinct := by simp [AppField.RegistersDistinct] },
    { name := "B".toList
      fields := [.registers []]
      keys_nodup := by decide
      registers_distinct := by simp [AppField.RegistersDistinct] }]
  after := []
  word_size := by simp
  names_nodup := by decide

/-- The register of the first application is found under the second one as well. -/
theorem not_attributed :
    ¬ (∀ (asInt : Text → Option Int) (doc : Document asInt), doc.Attributed) := by
  intro h
  obtain ⟨p, hp, hholds, -⟩ := h _ emptyRegistersLast
  have hthere : (match parse (fun _ => none) emptyRegistersLast.node {} with
      | .ok q => (q.fRegisters.lookup (keyRegAccessMode "B".toList "ctrl".toList)).isSome
      | .error _ => false) = true := by decide +kernel
  rw [hp] at hthere
  exact absurd (hholds.declared hthere) (by decide +kernel)

end Userworks.E16
