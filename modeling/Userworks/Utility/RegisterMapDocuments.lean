import Mathlib.Data.List.Nodup
import Userworks.Utility.RegisterMapParser

/-!
Register map documents and what each walker makes of their parts. A part is read
by the walker it is meant for, or by another one when the key that was passed
last is left over from what stood before it.
-/
namespace Userworks.E16

open RegisterMapParser

/-! ### Documents -/

structure Register where
  name : Text
  mode : Text
  width : Option Text
  first : Text
  last : Option Text

structure ConstantGroup where
  name : Text
  constants : List (Text × Text)

inductive AppField where
  | baseAddress (address : Text)
  | port (address : Text)
  | constants (groups : List ConstantGroup)
  | registers (registers : List Register)

def AppField.key : AppField → Text
  | .baseAddress _ => "base_address".toList
  | .port _ => "port".toList
  | .constants _ => "constants".toList
  | .registers _ => "registers".toList

def AppField.RegistersDistinct : AppField → Prop
  | .registers rs => (rs.map Register.name).Nodup
  | _ => True

/-- An application: its name, then some of the fields, in any order. -/
structure Application where
  name : Text
  fields : List AppField
  keys_nodup : (fields.map AppField.key).Nodup
  registers_distinct : ∀ field ∈ fields, field.RegistersDistinct

def Register.node (r : Register) : Node :=
  .map [("name".toList, .scalar r.name),
    ("access".toList, .seq ((r.mode :: r.width.toList).map .scalar)),
    ("address".toList, .seq ((r.first :: r.last.toList).map .scalar))]

def constantNode (c : Text × Text) : Node :=
  .map [("name".toList, .scalar c.1), ("value".toList, .scalar c.2)]

def ConstantGroup.entry (g : ConstantGroup) : Text × Node :=
  (g.name, .seq (g.constants.map constantNode))

def AppField.node : AppField → Node
  | .baseAddress address => .scalar address
  | .port address => .scalar address
  | .constants gs => .map (gs.map ConstantGroup.entry)
  | .registers rs => .seq (rs.map Register.node)

def AppField.entry (f : AppField) : Text × Node := (f.key, f.node)

def Application.entries (a : Application) : List (Text × Node) :=
  ("name".toList, .scalar a.name) :: a.fields.map AppField.entry

def Application.node (a : Application) : Node := .map a.entries

/-- A document: its list of applications among other entries, which hold a scalar each.
`asInt` says which texts yaml-cpp takes for integers. -/
structure Document (asInt : Text → Option Int) where
  before : List (Text × Text)
  applications : List Application
  after : List (Text × Text)
  word_size : ∀ e ∈ before ++ after, e.1 = "word_size".toList → (asInt e.2).isSome
  names_nodup : (applications.map Application.name).Nodup

def scalarEntry (e : Text × Text) : Text × Node := (e.1, .scalar e.2)

def Document.node {asInt : Text → Option Int} (doc : Document asInt) : Node :=
  .map (doc.before.map scalarEntry ++
    ("applications".toList, .seq (doc.applications.map Application.node)) ::
      doc.after.map scalarEntry)

/-! ### What a document declares -/

/-- A register without a width is one byte wide, one without a last address has one address. -/
def Register.declares (app : Text) (r : Register) : List (Text × Text) :=
  [(keyRegAccessMode app r.name, r.mode),
    (keyRegAccessWidth app r.name, r.width.getD "D8".toList),
    (keyRegAddrFirst app r.name, r.first),
    (keyRegAddrLast app r.name, r.last.getD r.first)]

def ConstantGroup.declares (app : Text) (g : ConstantGroup) : List (Text × Text) :=
  g.constants.map fun c => (keyConst app g.name c.1, c.2)

def AppField.declaresRegisters (app : Text) : AppField → List (Text × Text)
  | .baseAddress address => [(keyBaseAddress app, address)]
  | .port address => [(keyPort app, address)]
  | .constants _ => []
  | .registers rs => rs.flatMap (Register.declares app)

def AppField.declaresConstants (app : Text) : AppField → List (Text × Text)
  | .constants gs => gs.flatMap (ConstantGroup.declares app)
  | _ => []

def Application.declaresRegisters (a : Application) : List (Text × Text) :=
  a.fields.flatMap (AppField.declaresRegisters a.name)

def Application.declaresConstants (a : Application) : List (Text × Text) :=
  a.fields.flatMap (AppField.declaresConstants a.name)

def declaredRegisters (apps : List Application) : List (Text × Text) :=
  apps.flatMap Application.declaresRegisters

def declaredConstants (apps : List Application) : List (Text × Text) :=
  apps.flatMap Application.declaresConstants

def Application.DeclaresNothing (a : Application) : Prop :=
  a.declaresRegisters = [] ∧ a.declaresConstants = []

/-! ### The key that is left over -/

def leftByGroups (key : Text) (groups : List ConstantGroup) : Text :=
  match groups.getLast? with
  | none => key
  | some g => if g.constants = [] then g.name else "value".toList

def leftByRegisters (key : Text) (registers : List Register) : Text :=
  if registers = [] then key else "address".toList

/-- The last key that a walk through the field passes. -/
def AppField.lastKey : AppField → Text
  | .constants gs => leftByGroups "constants".toList gs
  | .registers rs => leftByRegisters "registers".toList rs
  | field => field.key

def Application.lastKey (a : Application) : Text :=
  match a.fields.getLast? with
  | none => "name".toList
  | some field => field.lastKey

/-- The key that is left over by a walk through the applications. -/
def leftOver (key : Text) (apps : List Application) : Text :=
  (apps.getLast?.map Application.lastKey).getD key

/-- The applications that are met with `constants` left over. -/
def skipped : Text → List Application → List Application
  | _, [] => []
  | key, a :: rest => (if key = "constants".toList then [a] else []) ++ skipped a.lastKey rest

/-- The application that was read last, when a walk starts at `app`. -/
def lastRead : Text → Text → List Application → Text
  | _, app, [] => app
  | key, app, a :: rest =>
      lastRead a.lastKey (if key = "constants".toList then app else a.name) rest

/-! ### Tables -/

/-- The table has the declared entries and no others. -/
def Holds (table declared : List (Text × Text)) : Prop :=
  ∀ k v, table.lookup k = some v ↔ (k, v) ∈ declared

def Consistent (declared : List (Text × Text)) : Prop :=
  ∀ k v v', (k, v) ∈ declared → (k, v') ∈ declared → v = v'

def emplaceAll (table entries : List (Text × Text)) : List (Text × Text) :=
  entries.foldl (fun table e => emplace table e.1 e.2) table

theorem emplaceAll_append (table es es' : List (Text × Text)) :
    emplaceAll table (es ++ es') = emplaceAll (emplaceAll table es) es' :=
  List.foldl_append

theorem lookup_entry (key value k : Text) (table : List (Text × Text)) :
    ((key, value) :: table).lookup k = (if k = key then some value else none).or
      (table.lookup k) := by
  by_cases hk : k = key
  · simp [hk]
  · simp [List.lookup_cons, hk, beq_eq_false_iff_ne.mpr hk]

theorem lookup_emplace (table : List (Text × Text)) (key value k : Text) :
    (emplace table key value).lookup k =
      (table.lookup k).or (if k = key then some value else none) := by
  rw [emplace]
  split
  · next hold =>
      by_cases hk : k = key
      · subst hk
        rw [Option.or_of_isSome hold]
      · rw [if_neg hk, Option.or_none]
  · rw [List.lookup_append, lookup_entry, List.lookup_nil, Option.or_none]

theorem lookup_emplaceAll (table es : List (Text × Text)) (k : Text) :
    (emplaceAll table es).lookup k = (table.lookup k).or (es.lookup k) := by
  induction es generalizing table with
  | nil => simp [emplaceAll]
  | cons e es ih =>
      change (emplaceAll (emplace table e.1 e.2) es).lookup k = _
      rw [ih, lookup_emplace, lookup_entry, Option.or_assoc]

theorem emplaceAll_known (table es : List (Text × Text))
    (h : ∀ e ∈ es, (table.lookup e.1).isSome) : emplaceAll table es = table := by
  induction es with
  | nil => rfl
  | cons e es ih =>
      have hhead : emplace table e.1 e.2 = table := if_pos (h e (by simp))
      change emplaceAll (emplace table e.1 e.2) es = table
      rw [hhead]
      exact ih fun e' he' => h e' (by simp [he'])

theorem isSome_lookup_iff (table : List (Text × Text)) (k : Text) :
    (table.lookup k).isSome ↔ k ∈ table.map Prod.fst := by
  induction table with
  | nil => simp
  | cons e table ih =>
      rw [lookup_entry, List.map_cons, List.mem_cons, ← ih]
      by_cases hk : k = e.1 <;> simp [hk]

theorem isSome_lookup_emplaceAll (table : List (Text × Text)) {es : List (Text × Text)} {k : Text}
    (h : k ∈ es.map Prod.fst) : ((emplaceAll table es).lookup k).isSome := by
  rw [lookup_emplaceAll, Option.isSome_or, (isSome_lookup_iff es k).mpr h, Bool.or_true]

theorem mem_of_lookup {table : List (Text × Text)} {k v : Text} (h : table.lookup k = some v) :
    (k, v) ∈ table := by
  induction table with
  | nil => cases h
  | cons e table ih =>
      rw [lookup_entry] at h
      by_cases hk : k = e.1
      · rw [if_pos hk, Option.some_or, Option.some.injEq] at h
        rw [hk, ← h]
        exact List.mem_cons_self
      · rw [if_neg hk, Option.none_or] at h
        exact List.mem_cons_of_mem e (ih h)

theorem holds_emplaceAll {declared : List (Text × Text)} (h : Consistent declared) :
    Holds (emplaceAll [] declared) declared := by
  intro k v
  rw [lookup_emplaceAll, List.lookup_nil, Option.none_or]
  constructor
  · exact mem_of_lookup
  · intro hmem
    have hsome := (isSome_lookup_iff declared k).mpr (List.mem_map.mpr ⟨(k, v), hmem, rfl⟩)
    obtain ⟨v', hv'⟩ := Option.isSome_iff_exists.mp hsome
    rw [hv', h k v v' hmem (mem_of_lookup hv')]

theorem consistent_of_nodup {declared : List (Text × Text)}
    (h : (declared.map Prod.fst).Nodup) : Consistent declared := by
  intro k v v' hv hv'
  exact congrArg Prod.snd (List.inj_on_of_nodup_map h hv hv' rfl)

theorem Holds.consistent {table declared : List (Text × Text)} (h : Holds table declared) :
    Consistent declared := by
  intro k v v' hv hv'
  have hlookup := (h k v').mpr hv'
  rw [(h k v).mpr hv, Option.some.injEq] at hlookup
  exact hlookup

theorem Holds.declared {table declared : List (Text × Text)} (h : Holds table declared)
    {k : Text} (hk : (table.lookup k).isSome) : k ∈ declared.map Prod.fst := by
  obtain ⟨v, hv⟩ := Option.isSome_iff_exists.mp hk
  exact List.mem_map.mpr ⟨(k, v), (h k v).mp hv, rfl⟩

end Userworks.E16
