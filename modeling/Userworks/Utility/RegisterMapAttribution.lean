import Userworks.Utility.RegisterMapWalks

/-!
Which entries end in the tables when a whole document is parsed. `parse` walks
the list of applications as often as it has elements and then passes through it
once more by itself, which changes no table.
-/
namespace Userworks.E16

open RegisterMapParser

variable {asInt : Text → Option Int}

/-! ### What `parse` itself passes through -/

def SameTables (p q : RegisterMapParser) : Prop :=
  q.fRegisters = p.fRegisters ∧ q.fConstants = p.fConstants

theorem SameTables.trans {p q s : RegisterMapParser} (h : SameTables p q) (h' : SameTables q s) :
    SameTables p s := ⟨h'.1.trans h.1, h'.2.trans h.2⟩

theorem parseEntries_step {key : Text} {value : Node} {rest : List (Text × Node)}
    {p q : RegisterMapParser} (h : parse asInt value { p with fKey := key } = .ok q) :
    parseEntries asInt ((key, value) :: rest) p = parseEntries asInt rest q := by
  rw [parseEntries, h]
  rfl

theorem parseItems_step {n : Node} {rest : List Node} {p q : RegisterMapParser}
    (h : parse asInt n p = .ok q) : parseItems asInt (n :: rest) p = parseItems asInt rest q := by
  rw [parseItems, h]
  rfl

theorem parseEntries_same {entries : List (Text × Node)}
    (h : ∀ e ∈ entries, ∀ p : RegisterMapParser,
      ∃ q, parse asInt e.2 { p with fKey := e.1 } = .ok q ∧ SameTables p q)
    (p : RegisterMapParser) :
    ∃ q, parseEntries asInt entries p = .ok q ∧ SameTables p q := by
  induction entries generalizing p with
  | nil => exact ⟨p, rfl, rfl, rfl⟩
  | cons e rest ih =>
      obtain ⟨q, hq, hsame⟩ := h e List.mem_cons_self p
      obtain ⟨s, hs, hsame'⟩ := ih (fun e' he' => h e' (List.mem_cons_of_mem e he')) q
      exact ⟨s, (parseEntries_step hq).trans hs, hsame.trans hsame'⟩

theorem parseItems_same {items : List Node}
    (h : ∀ n ∈ items, ∀ p, ∃ q, parse asInt n p = .ok q ∧ SameTables p q)
    (p : RegisterMapParser) :
    ∃ q, parseItems asInt items p = .ok q ∧ SameTables p q := by
  induction items generalizing p with
  | nil => exact ⟨p, rfl, rfl, rfl⟩
  | cons n rest ih =>
      obtain ⟨q, hq, hsame⟩ := h n List.mem_cons_self p
      obtain ⟨s, hs, hsame'⟩ := ih (fun n' hn' => h n' (List.mem_cons_of_mem n hn')) q
      exact ⟨s, (parseItems_step hq).trans hs, hsame.trans hsame'⟩

theorem parse_scalar (text : Text) (p : RegisterMapParser) (hname : p.fKey ≠ "module-type".toList)
    (hsize : p.fKey ≠ "word_size".toList) : parse asInt (.scalar text) p = .ok p := by
  rw [parse, if_neg hname, if_neg hsize]

theorem parse_scalarEntry {e : Text × Text} (hname : e.1 ≠ "module-type".toList)
    (hsize : e.1 ≠ "word_size".toList) (p : RegisterMapParser) :
    ∃ q, parse asInt (scalarEntry e).2 { p with fKey := (scalarEntry e).1 } = .ok q ∧
      SameTables p q := ⟨_, parse_scalar e.2 { p with fKey := e.1 } hname hsize, rfl, rfl⟩

theorem parse_constantNode (c : Text × Text) (p : RegisterMapParser) :
    ∃ q, parse asInt (constantNode c) p = .ok q ∧ SameTables p q := by
  rw [constantNode, parse]
  apply parseEntries_same
  intro e he
  cases List.mem_cons.mp he with
  | inl h => rw [h]; exact parse_scalarEntry (e := ("name".toList, c.1)) (by simp) (by simp)
  | inr h =>
      rw [List.mem_singleton.mp h]
      exact parse_scalarEntry (e := ("value".toList, c.2)) (by simp) (by simp)

/-! A group of constants called `applications` is handed to `parseApp`, which takes the names
of the constants for names of applications and finds nothing to declare. -/

theorem parseApp_constantNode (c : Text × Text) (p : RegisterMapParser)
    (h : p.fKey ≠ "constants".toList) :
    parseApp (constantNode c) p = .ok { p with fKey := "value".toList, fAppName := c.1 } := by
  have hname : parseApp (.scalar c.1) { p with fKey := "name".toList } =
      .ok { p with fKey := "name".toList, fAppName := c.1 } := by
    rw [parseApp, if_pos rfl]
  have hvalue : parseApp (.scalar c.2) { p with fKey := "value".toList, fAppName := c.1 } =
      .ok { p with fKey := "value".toList, fAppName := c.1 } := by
    rw [parseApp, if_neg (by simp), if_neg (by simp), if_neg (by simp)]
  rw [constantNode, parseApp, if_neg h, parseAppEntries_step hname, parseAppEntries_step hvalue,
    parseAppEntries]

def AtApplications (p : RegisterMapParser) : Prop :=
  p.fKey = "applications".toList ∨ p.fKey = "value".toList

theorem AtApplications.ne {p : RegisterMapParser} (h : AtApplications p) :
    p.fKey ≠ "constants".toList ∧ p.fKey ≠ "registers".toList := by
  cases h with
  | inl h => rw [h]; decide
  | inr h => rw [h]; decide

theorem parseAppItems_constants (cs : List (Text × Text)) (p : RegisterMapParser)
    (h : AtApplications p) :
    ∃ q, parseAppItems (cs.map constantNode) p = .ok q ∧ SameTables p q ∧ AtApplications q := by
  induction cs generalizing p with
  | nil => exact ⟨p, rfl, ⟨rfl, rfl⟩, h⟩
  | cons c cs ih =>
      obtain ⟨q, hq, hsame, hat⟩ := ih { p with fKey := "value".toList, fAppName := c.1 }
        (Or.inr rfl)
      exact ⟨q, (parseAppItems_step (parseApp_constantNode c p h.ne.1)).trans hq, hsame, hat⟩

theorem parseApps_constants (cs : List (Text × Text)) (times : Nat) (p : RegisterMapParser)
    (h : AtApplications p) :
    ∃ q, parseApps (cs.map constantNode) times p = .ok q ∧ SameTables p q := by
  induction times generalizing p with
  | zero => exact ⟨p, rfl, rfl, rfl⟩
  | succ times ih =>
      obtain ⟨q, hq, hsame, hat⟩ := parseAppItems_constants cs p h
      obtain ⟨s, hs, hsame'⟩ := ih q hat
      refine ⟨s, ?_, hsame.trans hsame'⟩
      rw [parseApps, parseApp, if_neg h.ne.2, hq]
      exact hs

theorem parse_group (g : ConstantGroup) (p : RegisterMapParser) :
    ∃ q, parse asInt g.entry.2 { p with fKey := g.entry.1 } = .ok q ∧ SameTables p q := by
  have hitems := @parseItems_same asInt (g.constants.map constantNode) (by
    intro n hn r
    obtain ⟨c, -, rfl⟩ := List.mem_map.mp hn
    exact parse_constantNode c r)
  rw [ConstantGroup.entry, parse]
  by_cases hname : g.name = "applications".toList
  · obtain ⟨q, hq, hsame⟩ := parseApps_constants g.constants g.constants.length
      { p with fKey := g.name } (Or.inl hname)
    obtain ⟨s, hs, hsame'⟩ := hitems q
    refine ⟨s, ?_, hsame.trans hsame'⟩
    rw [if_pos hname, List.length_map, hq]
    exact hs
  · rw [if_neg hname]
    exact hitems _

theorem parse_scalars (key : Text) (texts : List Text) (hname : key ≠ "module-type".toList)
    (hsize : key ≠ "word_size".toList) (happs : key ≠ "applications".toList)
    (p : RegisterMapParser) :
    ∃ q, parse asInt (.seq (texts.map .scalar)) { p with fKey := key } = .ok q ∧
      SameTables p q := by
  have hitems : parseItems asInt (texts.map .scalar) { p with fKey := key } =
      .ok { p with fKey := key } := by
    induction texts with
    | nil => rfl
    | cons text texts ih =>
        exact (parseItems_step (parse_scalar text { p with fKey := key } hname hsize)).trans ih
  refine ⟨{ p with fKey := key }, ?_, rfl, rfl⟩
  rw [parse, if_neg happs]
  exact hitems

theorem parse_register (r : Register) (p : RegisterMapParser) :
    ∃ q, parse asInt r.node p = .ok q ∧ SameTables p q := by
  rw [Register.node, parse]
  apply parseEntries_same
  intro e he
  simp only [List.mem_cons, List.not_mem_nil, or_false] at he
  obtain h | h | h := he
  · rw [h]
    exact parse_scalarEntry (e := ("name".toList, r.name)) (by simp) (by simp)
  · rw [h]
    exact parse_scalars "access".toList (r.mode :: r.width.toList) (by simp) (by simp) (by simp)
  · rw [h]
    exact parse_scalars "address".toList (r.first :: r.last.toList) (by simp) (by simp) (by simp)

theorem parse_field (f : AppField) (p : RegisterMapParser) :
    ∃ q, parse asInt f.entry.2 { p with fKey := f.entry.1 } = .ok q ∧ SameTables p q := by
  cases f with
  | baseAddress address =>
      exact parse_scalarEntry (e := ("base_address".toList, address)) (by simp) (by simp) p
  | port address => exact parse_scalarEntry (e := ("port".toList, address)) (by simp) (by simp) p
  | constants gs =>
      rw [AppField.entry, AppField.node, parse]
      apply parseEntries_same
      intro e he
      obtain ⟨g, -, rfl⟩ := List.mem_map.mp he
      exact parse_group g
  | registers rs =>
      have hne : "registers".toList ≠ "applications".toList := by decide
      have hitems := @parseItems_same asInt (rs.map Register.node) (by
        intro n hn q
        obtain ⟨r, -, rfl⟩ := List.mem_map.mp hn
        exact parse_register r q)
      obtain ⟨q, hq, hsame⟩ := hitems { p with fKey := "registers".toList }
      refine ⟨q, ?_, hsame⟩
      rw [AppField.entry, AppField.node, parse]
      exact (if_neg hne).trans hq

theorem parse_application (a : Application) (p : RegisterMapParser) :
    ∃ q, parse asInt a.node p = .ok q ∧ SameTables p q := by
  rw [Application.node, parse]
  apply parseEntries_same
  intro e he
  cases List.mem_cons.mp he with
  | inl h => rw [h]; exact parse_scalarEntry (e := ("name".toList, a.name)) (by simp) (by simp)
  | inr h =>
      obtain ⟨f, -, rfl⟩ := List.mem_map.mp h
      exact parse_field f

/-! ### The document -/

theorem parse_header (e : Text × Text) (h : e.1 = "word_size".toList → (asInt e.2).isSome)
    (p : RegisterMapParser) :
    ∃ q, parse asInt (scalarEntry e).2 { p with fKey := (scalarEntry e).1 } = .ok q ∧
      SameTables p q := by
  rw [scalarEntry, parse]
  by_cases hname : e.1 = "module-type".toList
  · rw [if_pos hname]
    exact ⟨_, rfl, rfl, rfl⟩
  rw [if_neg hname]
  by_cases hsize : e.1 = "word_size".toList
  · obtain ⟨size, hint⟩ := Option.isSome_iff_exists.mp (h hsize)
    rw [if_pos hsize, hint]
    exact ⟨_, rfl, rfl, rfl⟩
  · rw [if_neg hsize]
    exact ⟨_, rfl, rfl, rfl⟩

theorem parseEntries_append {es es' : List (Text × Node)} {p q : RegisterMapParser}
    (h : parseEntries asInt es p = .ok q) :
    parseEntries asInt (es ++ es') p = parseEntries asInt es' q := by
  induction es generalizing p with
  | nil => cases h; rfl
  | cons e rest ih =>
      obtain ⟨key, value⟩ := e
      rw [parseEntries] at h
      cases hhead : parse asInt value { p with fKey := key } with
      | error fault => rw [hhead] at h; cases h
      | ok s =>
          rw [hhead] at h
          exact (parseEntries_step hhead).trans (ih h)

theorem parse_applications (items : List Node) (p : RegisterMapParser)
    (h : p.fKey = "applications".toList) :
    parse asInt (.seq items) p = parseApps items items.length p >>= parseItems asInt items := by
  rw [parse, if_pos h]

/-- A document is parsed as its list of applications is walked. -/
theorem parse_document (doc : Document asInt) :
    ∃ p : RegisterMapParser, p.fKey = "applications".toList ∧ p.fRegisters = [] ∧
      p.fConstants = [] ∧
      (∀ q, parseApps (doc.applications.map Application.node) doc.applications.length p = .ok q →
        ∃ s, parse asInt doc.node {} = .ok s ∧ SameTables q s) ∧
      (∀ fault, parseApps (doc.applications.map Application.node) doc.applications.length p =
        .error fault → parse asInt doc.node {} = .error fault) := by
  have hheader (es : List (Text × Text)) (hes : ∀ e ∈ es, e ∈ doc.before ++ doc.after)
      (p : RegisterMapParser) :
      ∃ q, parseEntries asInt (es.map scalarEntry) p = .ok q ∧ SameTables p q := by
    apply parseEntries_same
    intro e he
    obtain ⟨h, hh, rfl⟩ := List.mem_map.mp he
    exact parse_header h (doc.word_size h (hes h hh))
  obtain ⟨p, hp, hsame⟩ := hheader doc.before (fun e he => List.mem_append_left _ he) {}
  refine ⟨{ p with fKey := "applications".toList }, rfl, hsame.1, hsame.2, ?_, ?_⟩
  · intro q hq
    obtain ⟨s, hs, hitems⟩ := @parseItems_same asInt
      (doc.applications.map Application.node) (by
        intro n hn r
        obtain ⟨a, -, rfl⟩ := List.mem_map.mp hn
        exact parse_application a r) q
    obtain ⟨t, ht, hafter⟩ := hheader doc.after (fun e he => List.mem_append_right _ he) s
    have happs : parse asInt (.seq (doc.applications.map Application.node))
        { p with fKey := "applications".toList } = .ok s := by
      rw [parse_applications _ _ rfl, List.length_map, hq]
      exact hs
    refine ⟨t, ?_, hitems.trans hafter⟩
    rw [Document.node, parse, parseEntries_append hp, parseEntries_step happs]
    exact ht
  · intro fault hfault
    rw [Document.node, parse, parseEntries_append hp, parseEntries, parse_applications _ _ rfl,
      List.length_map, hfault]
    rfl

/-! ### Every entry under its own application -/

def Document.Attributed (doc : Document asInt) : Prop :=
  ∃ p, parse asInt doc.node {} = .ok p ∧
    Holds p.fRegisters (declaredRegisters doc.applications) ∧
    Holds p.fConstants (declaredConstants doc.applications)

/-- No two entries that are declared ask for one key with different values. -/
def Document.Consistent (doc : Document asInt) : Prop :=
  E16.Consistent (declaredRegisters doc.applications) ∧
    E16.Consistent (declaredConstants doc.applications)

theorem attributed_of_layout {doc : Document asInt} (hlayout : Layout doc.applications)
    (hconsistent : doc.Consistent) : doc.Attributed := by
  obtain ⟨p, hkey, hregs, hconsts, hok, -⟩ := parse_document doc
  have hwalks : ∃ q, parseApps (doc.applications.map Application.node) doc.applications.length p =
      .ok q ∧ q.fRegisters = emplaceAll [] (declaredRegisters doc.applications) ∧
      q.fConstants = emplaceAll [] (declaredConstants doc.applications) := by
    by_cases hne : doc.applications = []
    · rw [hne]
      exact ⟨p, rfl, hregs, hconsts⟩
    obtain ⟨q, hq, hsettled⟩ := first_walk hne hlayout.follows hkey hregs hconsts
    by_cases hmany : 2 ≤ doc.applications.length
    · obtain ⟨s, hs, hend⟩ := all_walks hlayout hmany (doc.applications.length - 1) hsettled
      refine ⟨s, ?_, hend.regs, hend.consts⟩
      obtain ⟨more, hmore⟩ := Nat.exists_eq_add_of_le' hmany
      rw [hmore] at hs ⊢
      rw [parseApps, hq]
      exact hs
    · have hone : doc.applications.length = 1 := by
        have := List.length_pos_of_ne_nil hne
        omega
      refine ⟨q, ?_, hsettled.regs, hsettled.consts⟩
      rw [hone, parseApps, hq]
      rfl
  obtain ⟨q, hq, hqregs, hqconsts⟩ := hwalks
  obtain ⟨s, hs, hsame⟩ := hok q hq
  refine ⟨s, hs, ?_, ?_⟩
  · rw [hsame.1, hqregs]
    exact holds_emplaceAll hconsistent.1
  · rw [hsame.2, hqconsts]
    exact holds_emplaceAll hconsistent.2

end Userworks.E16
