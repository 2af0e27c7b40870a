import Userworks.Utility.RegisterMapDocuments

/-!
How the walkers read the parts of a register map document: the entries that each
of them puts in the tables, the key it leaves over and the application it is at.
-/
namespace Userworks.E16

open RegisterMapParser

/-- From `p` to `q` the entries `regs` and `consts` are put in the tables. -/
structure Reads (p q : RegisterMapParser) (key app : Text) (regs consts : List (Text × Text)) :
    Prop where
  key : q.fKey = key
  app : q.fAppName = app
  regs : q.fRegisters = emplaceAll p.fRegisters regs
  consts : q.fConstants = emplaceAll p.fConstants consts

theorem Reads.refl (p : RegisterMapParser) : Reads p p p.fKey p.fAppName [] [] :=
  ⟨rfl, rfl, rfl, rfl⟩

theorem Reads.trans {p q s : RegisterMapParser} {k k' a a' : Text}
    {r r' c c' : List (Text × Text)} (h : Reads p q k a r c) (h' : Reads q s k' a' r' c') :
    Reads p s k' a' (r ++ r') (c ++ c') := by
  refine ⟨h'.key, h'.app, ?_, ?_⟩
  · rw [h'.regs, h.regs, emplaceAll_append]
  · rw [h'.consts, h.consts, emplaceAll_append]

/-! ### Constants -/

theorem parseConstant_constantNode (c : Text × Text) (p : RegisterMapParser) :
    parseConstant (constantNode c) p = { p with fKey := "value".toList, fConstKV := c } := by
  simp [constantNode, parseConstant, parseConstantEntries]

theorem reads_constants (cs : List (Text × Text)) (p : RegisterMapParser) :
    Reads p (parseConstantItems (cs.map constantNode) p)
      (if cs = [] then p.fKey else "value".toList) p.fAppName []
      (cs.map fun c => (keyConst p.fAppName p.fConstGroup c.1, c.2)) := by
  induction cs generalizing p with
  | nil => exact Reads.refl p
  | cons c cs ih =>
      rw [List.map_cons, parseConstantItems, parseConstant_constantNode]
      have hhead : Reads p
          (emplaceConstant { p with fKey := "value".toList, fConstKV := c })
          "value".toList p.fAppName [] [(keyConst p.fAppName p.fConstGroup c.1, c.2)] :=
        ⟨rfl, rfl, rfl, rfl⟩
      have hboth := hhead.trans (ih _)
      have hleft : (if cs = [] then "value".toList else "value".toList) = "value".toList := by
        split <;> rfl
      rw [if_neg (List.cons_ne_nil c cs)]
      exact ⟨hboth.key.trans hleft, hboth.app, hboth.regs, hboth.consts⟩

theorem reads_group (g : ConstantGroup) (p : RegisterMapParser) :
    Reads p (parseConstant g.entry.2 { p with fKey := g.entry.1 })
      (if g.constants = [] then g.name else "value".toList) p.fAppName []
      (g.declares p.fAppName) := by
  have h := reads_constants g.constants
    { p with fKey := g.name, fConstGroup := g.name }
  exact ⟨h.key, h.app, h.regs, h.consts⟩

theorem leftByGroups_cons (key : Text) (g : ConstantGroup) (gs : List ConstantGroup) :
    leftByGroups (if g.constants = [] then g.name else "value".toList) gs =
      leftByGroups key (g :: gs) := by
  cases gs with
  | nil => rfl
  | cons g' gs => simp only [leftByGroups, List.getLast?_cons, Option.getD_some]

theorem reads_groups (gs : List ConstantGroup) (p : RegisterMapParser) :
    Reads p (parseConstantEntries (gs.map ConstantGroup.entry) p)
      (leftByGroups p.fKey gs) p.fAppName [] (gs.flatMap (ConstantGroup.declares p.fAppName)) := by
  induction gs generalizing p with
  | nil => exact Reads.refl p
  | cons g gs ih =>
      rw [List.map_cons, parseConstantEntries, List.flatMap_cons]
      have hhead := reads_group g p
      have hboth := hhead.trans (ih _)
      rw [hhead.key, hhead.app, leftByGroups_cons p.fKey g gs] at hboth
      exact hboth

/-! ### Registers -/

theorem mapM_asString (texts : List Text) :
    (texts.map Node.scalar).mapM Node.asString = .ok texts := by
  induction texts with
  | nil => rfl
  | cons text texts ih =>
      rw [List.map_cons, List.mapM_cons, ih]
      rfl

theorem parseAccess_declared (mode : Text) (width : Option Text) (p : RegisterMapParser) :
    parseAccess (mode :: width.toList) p = .ok { p with
      fRegisters := emplaceAll p.fRegisters
        [(keyRegAccessMode p.fAppName p.fRegName, mode),
          (keyRegAccessWidth p.fAppName p.fRegName, width.getD "D8".toList)] } := by
  cases width <;> rfl

theorem parseAddress_declared (first : Text) (last : Option Text) (p : RegisterMapParser) :
    parseAddress (first :: last.toList) p = .ok { p with
      fRegisters := emplaceAll p.fRegisters
        [(keyRegAddrFirst p.fAppName p.fRegName, first),
          (keyRegAddrLast p.fAppName p.fRegName, last.getD first)] } := by
  cases last <;> rfl

theorem parseRegisterEntries_step {key : Text} {value : Node} {rest : List (Text × Node)}
    {p q : RegisterMapParser} (h : parseRegister value { p with fKey := key } = .ok q) :
    parseRegisterEntries ((key, value) :: rest) p = parseRegisterEntries rest q := by
  rw [parseRegisterEntries, h]
  rfl

theorem parseRegisterItems_step {n : Node} {rest : List Node} {p q : RegisterMapParser}
    (h : parseRegister n p = .ok q) :
    parseRegisterItems (n :: rest) p = parseRegisterItems rest q := by
  rw [parseRegisterItems, h]
  rfl

theorem parseRegister_access (texts : List Text) (p : RegisterMapParser)
    (h : p.fKey = "access".toList) :
    parseRegister (.seq (texts.map .scalar)) p = parseAccess texts p := by
  rw [parseRegister, if_pos h, mapM_asString]
  rfl

theorem parseRegister_address (texts : List Text) (p : RegisterMapParser)
    (h : p.fKey = "address".toList) :
    parseRegister (.seq (texts.map .scalar)) p = parseAddress texts p := by
  rw [parseRegister, if_neg (by rw [h]; decide), if_pos h, mapM_asString]
  rfl

theorem parseRegister_items (items : List Node) (p : RegisterMapParser)
    (h : p.fKey = "registers".toList) :
    parseRegister (.seq items) p = parseRegisterItems items p := by
  rw [parseRegister, if_neg (by rw [h]; decide), if_neg (by rw [h]; decide)]

theorem parseRegister_node (r : Register) (p : RegisterMapParser) :
    parseRegister r.node p = .ok { p with
      fKey := "address".toList
      fRegName := r.name
      fRegisters := emplaceAll p.fRegisters (r.declares p.fAppName) } := by
  have hname : parseRegister (.scalar r.name) { p with fKey := "name".toList } =
      .ok { p with fKey := "name".toList, fRegName := r.name } := by
    rw [parseRegister, if_pos rfl]
  have haccess := (parseRegister_access (r.mode :: r.width.toList)
    { p with fKey := "access".toList, fRegName := r.name } rfl).trans (parseAccess_declared _ _ _)
  have haddress := (parseRegister_address (r.first :: r.last.toList)
    { p with
      fKey := "address".toList
      fRegName := r.name
      fRegisters := emplaceAll p.fRegisters
        [(keyRegAccessMode p.fAppName r.name, r.mode),
          (keyRegAccessWidth p.fAppName r.name, r.width.getD "D8".toList)] } rfl).trans
    (parseAddress_declared _ _ _)
  rw [Register.node, parseRegister, parseRegisterEntries_step hname,
    parseRegisterEntries_step haccess, parseRegisterEntries_step haddress, parseRegisterEntries,
    ← emplaceAll_append]
  rfl

theorem reads_registers (rs : List Register) (p : RegisterMapParser) :
    ∃ q, parseRegisterItems (rs.map Register.node) p = .ok q ∧
      Reads p q (leftByRegisters p.fKey rs) p.fAppName
        (rs.flatMap (Register.declares p.fAppName)) [] := by
  induction rs generalizing p with
  | nil => exact ⟨p, rfl, Reads.refl p⟩
  | cons r rs ih =>
      rw [List.map_cons, parseRegisterItems_step (parseRegister_node r p), List.flatMap_cons]
      obtain ⟨q, hq, hreads⟩ := ih { p with
        fKey := "address".toList
        fRegName := r.name
        fRegisters := emplaceAll p.fRegisters (r.declares p.fAppName) }
      have hhead : Reads p { p with
          fKey := "address".toList
          fRegName := r.name
          fRegisters := emplaceAll p.fRegisters (r.declares p.fAppName) }
          "address".toList p.fAppName (r.declares p.fAppName) [] := ⟨rfl, rfl, rfl, rfl⟩
      have hboth := hhead.trans hreads
      have hleft : leftByRegisters "address".toList rs = leftByRegisters p.fKey (r :: rs) := by
        rw [leftByRegisters, leftByRegisters, if_neg (List.cons_ne_nil r rs)]
        split <;> rfl
      exact ⟨q, hq, hboth.key.trans hleft, hboth.app, hboth.regs, hboth.consts⟩

/-! ### Applications -/

theorem parseAppEntries_step {key : Text} {value : Node} {rest : List (Text × Node)}
    {p q : RegisterMapParser} (h : parseApp value { p with fKey := key } = .ok q) :
    parseAppEntries ((key, value) :: rest) p = parseAppEntries rest q := by
  rw [parseAppEntries, h]
  rfl

theorem parseAppItems_step {n : Node} {rest : List Node} {p q : RegisterMapParser}
    (h : parseApp n p = .ok q) : parseAppItems (n :: rest) p = parseAppItems rest q := by
  rw [parseAppItems, h]
  rfl

theorem parseApp_baseAddress (address : Text) (p : RegisterMapParser)
    (h : p.fKey = "base_address".toList) :
    parseApp (.scalar address) p = .ok (p.emplaceRegister (keyBaseAddress p.fAppName) address) := by
  rw [parseApp, if_neg (by rw [h]; decide), if_pos h]

theorem parseApp_port (address : Text) (p : RegisterMapParser) (h : p.fKey = "port".toList) :
    parseApp (.scalar address) p = .ok (p.emplaceRegister (keyPort p.fAppName) address) := by
  rw [parseApp, if_neg (by rw [h]; decide), if_neg (by rw [h]; decide), if_pos h]

theorem parseApp_constants (entries : List (Text × Node)) (p : RegisterMapParser)
    (h : p.fKey = "constants".toList) :
    parseApp (.map entries) p = .ok (parseConstantEntries entries p) := by
  rw [parseApp, if_pos h]

theorem parseApp_registers (items : List Node) (p : RegisterMapParser)
    (h : p.fKey = "registers".toList) :
    parseApp (.seq items) p = parseRegisterItems items p := by
  rw [parseApp, if_pos h, parseRegister_items items p h]

theorem reads_field (f : AppField) (p : RegisterMapParser) :
    ∃ q, parseApp f.node { p with fKey := f.key } = .ok q ∧
      Reads p q f.lastKey p.fAppName (f.declaresRegisters p.fAppName)
        (f.declaresConstants p.fAppName) := by
  cases f with
  | baseAddress address =>
      refine ⟨emplaceRegister { p with fKey := "base_address".toList }
        (keyBaseAddress p.fAppName) address, ?_, ⟨rfl, rfl, rfl, rfl⟩⟩
      exact parseApp_baseAddress address _ rfl
  | port address =>
      refine ⟨emplaceRegister { p with fKey := "port".toList }
        (keyPort p.fAppName) address, ?_, ⟨rfl, rfl, rfl, rfl⟩⟩
      exact parseApp_port address _ rfl
  | constants gs =>
      have h := reads_groups gs { p with fKey := "constants".toList }
      refine ⟨_, ?_, h.key, h.app, h.regs, h.consts⟩
      exact parseApp_constants _ _ rfl
  | registers rs =>
      obtain ⟨q, hq, h⟩ := reads_registers rs { p with fKey := "registers".toList }
      refine ⟨q, ?_, h.key, h.app, h.regs, h.consts⟩
      exact (parseApp_registers _ _ rfl).trans hq

theorem reads_fields (fs : List AppField) (p : RegisterMapParser) :
    ∃ q, parseAppEntries (fs.map AppField.entry) p = .ok q ∧
      Reads p q ((fs.getLast?.map AppField.lastKey).getD p.fKey) p.fAppName
        (fs.flatMap (AppField.declaresRegisters p.fAppName))
        (fs.flatMap (AppField.declaresConstants p.fAppName)) := by
  induction fs generalizing p with
  | nil => exact ⟨p, rfl, Reads.refl p⟩
  | cons f fs ih =>
      obtain ⟨q, hq, hhead⟩ := reads_field f p
      obtain ⟨s, hs, htail⟩ := ih q
      have hboth := hhead.trans htail
      refine ⟨s, ?_, hboth.key.trans ?_, hboth.app.trans hhead.app, ?_, ?_⟩
      · rw [List.map_cons, AppField.entry, parseAppEntries_step hq]
        exact hs
      · rw [hhead.key, List.getLast?_cons]
        cases fs.getLast? <;> rfl
      · rw [List.flatMap_cons, hboth.regs, hhead.app]
      · rw [List.flatMap_cons, hboth.consts, hhead.app]

theorem Application.lastKey_eq (a : Application) :
    a.lastKey = (a.fields.getLast?.map AppField.lastKey).getD "name".toList := by
  rw [Application.lastKey]
  cases a.fields.getLast? <;> rfl

/-- An application that is met without `constants` left over is read in full. -/
theorem reads_application (a : Application) (p : RegisterMapParser)
    (h : p.fKey ≠ "constants".toList) :
    ∃ q, parseApp a.node p = .ok q ∧
      Reads p q a.lastKey a.name a.declaresRegisters a.declaresConstants := by
  obtain ⟨q, hq, hreads⟩ := reads_fields a.fields
    { p with fKey := "name".toList, fAppName := a.name }
  have hname : parseApp (.scalar a.name) { p with fKey := "name".toList } =
      .ok { p with fKey := "name".toList, fAppName := a.name } := by
    rw [parseApp, if_pos rfl]
  refine ⟨q, ?_, hreads.key.trans a.lastKey_eq.symm, hreads.app, hreads.regs, hreads.consts⟩
  rw [Application.node, parseApp, if_neg h, Application.entries, parseAppEntries_step hname]
  exact hq

/-! ### An application taken for constants

With `constants` left over from before, the fields of an application are taken
for groups of constants of the application that came before. -/

theorem parseConstant_scalar (text : Text) (p : RegisterMapParser)
    (hname : p.fKey ≠ "name".toList) (hvalue : p.fKey ≠ "value".toList) :
    parseConstant (.scalar text) p = p := by
  rw [parseConstant, if_neg hname, if_neg hvalue]

theorem parseConstantItems_scalars (texts : List Text) (p : RegisterMapParser)
    (hname : p.fKey ≠ "name".toList) (hvalue : p.fKey ≠ "value".toList) :
    parseConstantItems (texts.map .scalar) p = { p with
      fConstants := emplaceAll p.fConstants (texts.map fun _ =>
        (keyConst p.fAppName p.fConstGroup p.fConstKV.1, p.fConstKV.2)) } := by
  induction texts generalizing p with
  | nil => rfl
  | cons text texts ih =>
      rw [List.map_cons, parseConstantItems, parseConstant_scalar text p hname hvalue,
        ih (emplaceConstant p) hname hvalue]
      rfl

def Register.strays (app value : Text) (r : Register) : List (Text × Text) :=
  ((r.mode :: r.width.toList).map fun _ => (keyConst app "access".toList r.name, value)) ++
    ((r.first :: r.last.toList).map fun _ => (keyConst app "address".toList r.name, value)) ++
    [(keyConst app "address".toList r.name, value)]

theorem mem_keys_repeated (text : Text) (texts : List Text) (key value k : Text) :
    k ∈ ((text :: texts).map fun _ => (key, value)).map Prod.fst ↔ k = key := by
  rw [List.map_map]
  constructor
  · intro h
    obtain ⟨_, -, hk⟩ := List.mem_map.mp h
    exact hk.symm
  · rintro rfl
    exact List.mem_map.mpr ⟨text, List.mem_cons_self, rfl⟩

theorem mem_keys_strays (app value k : Text) (r : Register) :
    k ∈ (r.strays app value).map Prod.fst ↔
      k ∈ [keyConst app "access".toList r.name, keyConst app "address".toList r.name] := by
  rw [Register.strays, List.map_append, List.map_append, List.mem_append, List.mem_append,
    mem_keys_repeated, mem_keys_repeated, List.map_cons, List.map_nil, List.mem_singleton,
    List.mem_cons, List.mem_singleton, or_assoc, or_self]

theorem parseConstant_register (r : Register) (p : RegisterMapParser) :
    (parseConstant r.node p).emplaceConstant = { p with
      fKey := "address".toList
      fConstKV := (r.name, p.fConstKV.2)
      fConstGroup := "address".toList
      fConstants := emplaceAll p.fConstants (r.strays p.fAppName p.fConstKV.2) } := by
  have haccess := parseConstantItems_scalars (r.mode :: r.width.toList)
    { p with
      fKey := "access".toList
      fConstKV := (r.name, p.fConstKV.2)
      fConstGroup := "access".toList } (by simp) (by simp)
  have haddress := parseConstantItems_scalars (r.first :: r.last.toList)
    { p with
      fKey := "address".toList
      fConstKV := (r.name, p.fConstKV.2)
      fConstGroup := "address".toList
      fConstants := emplaceAll p.fConstants ((r.mode :: r.width.toList).map fun _ =>
        (keyConst p.fAppName "access".toList r.name, p.fConstKV.2)) } (by simp) (by simp)
  rw [Register.node, parseConstant, parseConstantEntries, parseConstant, if_pos rfl,
    parseConstantEntries, parseConstant, haccess, parseConstantEntries, parseConstant, haddress,
    parseConstantEntries]
  rw [Register.strays, emplaceAll_append, emplaceAll_append]
  rfl

theorem strays_registers (rs : List Register) (p : RegisterMapParser) :
    Reads p (parseConstantItems (rs.map Register.node) p) (leftByRegisters p.fKey rs) p.fAppName
      [] (rs.flatMap (Register.strays p.fAppName p.fConstKV.2)) := by
  induction rs generalizing p with
  | nil => exact Reads.refl p
  | cons r rs ih =>
      rw [List.map_cons, parseConstantItems, parseConstant_register, List.flatMap_cons]
      have hhead : Reads p { p with
          fKey := "address".toList
          fConstKV := (r.name, p.fConstKV.2)
          fConstGroup := "address".toList
          fConstants := emplaceAll p.fConstants (r.strays p.fAppName p.fConstKV.2) }
          "address".toList p.fAppName [] (r.strays p.fAppName p.fConstKV.2) := ⟨rfl, rfl, rfl, rfl⟩
      have hboth := hhead.trans (ih _)
      have hleft : leftByRegisters "address".toList rs = leftByRegisters p.fKey (r :: rs) := by
        rw [leftByRegisters, leftByRegisters, if_neg (List.cons_ne_nil r rs)]
        split <;> rfl
      exact ⟨hboth.key.trans hleft, hboth.app, hboth.regs, hboth.consts⟩

/-- The keys of the constants that a field taken for one puts in the table. -/
def AppField.strayKeys (app : Text) : AppField → List Text
  | .constants gs => (gs.flatMap (ConstantGroup.declares app)).map Prod.fst
  | .registers rs => rs.flatMap fun r =>
      [keyConst app "access".toList r.name, keyConst app "address".toList r.name]
  | _ => []

def Application.strayKeys (app : Text) (a : Application) : List Text :=
  a.fields.flatMap (AppField.strayKeys app)

theorem strays_field (f : AppField) (p : RegisterMapParser) :
    ∃ es, Reads p (parseConstant f.node { p with fKey := f.key }) f.lastKey p.fAppName [] es ∧
      ∀ k, k ∈ es.map Prod.fst ↔ k ∈ f.strayKeys p.fAppName := by
  cases f with
  | baseAddress address =>
      have h := parseConstant_scalar address { p with fKey := "base_address".toList }
        (by simp) (by simp)
      have hreads : Reads p { p with fKey := "base_address".toList } "base_address".toList
          p.fAppName [] [] := ⟨rfl, rfl, rfl, rfl⟩
      rw [← h] at hreads
      exact ⟨[], hreads, fun k => Iff.rfl⟩
  | port address =>
      have h := parseConstant_scalar address { p with fKey := "port".toList } (by simp) (by simp)
      have hreads : Reads p { p with fKey := "port".toList } "port".toList p.fAppName
          [] [] := ⟨rfl, rfl, rfl, rfl⟩
      rw [← h] at hreads
      exact ⟨[], hreads, fun k => Iff.rfl⟩
  | constants gs =>
      have h := reads_groups gs { p with fKey := "constants".toList }
      exact ⟨_, ⟨h.key, h.app, h.regs, h.consts⟩, fun k => Iff.rfl⟩
  | registers rs =>
      have h := strays_registers rs
        { p with fKey := "registers".toList, fConstGroup := "registers".toList }
      refine ⟨_, ⟨h.key, h.app, h.regs, h.consts⟩, ?_⟩
      intro k
      simp only [AppField.strayKeys, List.map_flatMap, List.mem_flatMap, mem_keys_strays]

theorem strays_fields (fs : List AppField) (p : RegisterMapParser) :
    ∃ es, Reads p (parseConstantEntries (fs.map AppField.entry) p)
        ((fs.getLast?.map AppField.lastKey).getD p.fKey) p.fAppName [] es ∧
      ∀ k, k ∈ es.map Prod.fst ↔ k ∈ fs.flatMap (AppField.strayKeys p.fAppName) := by
  induction fs generalizing p with
  | nil => exact ⟨[], Reads.refl p, fun k => Iff.rfl⟩
  | cons f fs ih =>
      obtain ⟨es, hhead, hes⟩ := strays_field f p
      obtain ⟨es', htail, hes'⟩ := ih (parseConstant f.node { p with fKey := f.key })
      have hboth := hhead.trans htail
      refine ⟨es ++ es', ⟨?_, hboth.app.trans hhead.app, hboth.regs, hboth.consts⟩, ?_⟩
      · refine hboth.key.trans ?_
        rw [hhead.key, List.getLast?_cons]
        cases fs.getLast? <;> rfl
      · intro k
        rw [List.map_append, List.mem_append, hes, hes', hhead.app, List.flatMap_cons,
          List.mem_append]

theorem strays_application (a : Application) (p : RegisterMapParser) :
    ∃ es, Reads p (parseConstantEntries a.entries p) a.lastKey p.fAppName [] es ∧
      ∀ k, k ∈ es.map Prod.fst ↔ k ∈ a.strayKeys p.fAppName := by
  obtain ⟨es, hreads, hes⟩ := strays_fields a.fields
    { p with fKey := "name".toList, fConstKV := (a.name, p.fConstKV.2) }
  refine ⟨es, ?_, hes⟩
  rw [Application.entries, parseConstantEntries, parseConstant, if_pos rfl]
  exact ⟨hreads.key.trans a.lastKey_eq.symm, hreads.app, hreads.regs, hreads.consts⟩

/-! ### An application taken for registers

With `registers` left over the whole list of applications is taken for a list of
registers. A group of constants called `access` or `address` is no such parameter. -/

def ConstantGroup.Readable (g : ConstantGroup) : Prop :=
  g.name ≠ "access".toList ∧ g.name ≠ "address".toList

def AppField.Readable : AppField → Prop
  | .constants gs => ∀ g ∈ gs, g.Readable
  | _ => True

/-- The registers among the entries of a field, put down to the application `app`. -/
def AppField.strayRegisters (app : Text) : AppField → List (Text × Text)
  | .registers rs => rs.flatMap (Register.declares app)
  | _ => []

def Application.Readable (a : Application) : Prop := ∀ f ∈ a.fields, f.Readable

def Application.strayRegisters (app : Text) (a : Application) : List (Text × Text) :=
  a.fields.flatMap (AppField.strayRegisters app)

theorem parseRegister_scalar (text : Text) (p : RegisterMapParser)
    (h : p.fKey ≠ "name".toList) : parseRegister (.scalar text) p = .ok p := by
  rw [parseRegister, if_neg h]

theorem parseRegister_constantNode (c : Text × Text) (p : RegisterMapParser) :
    parseRegister (constantNode c) p =
      .ok { p with fKey := "value".toList, fRegName := c.1 } := by
  have hname : parseRegister (.scalar c.1) { p with fKey := "name".toList } =
      .ok { p with fKey := "name".toList, fRegName := c.1 } := by
    rw [parseRegister, if_pos rfl]
  have hvalue := parseRegister_scalar c.2
    { p with fKey := "value".toList, fRegName := c.1 } (by simp)
  rw [constantNode, parseRegister, parseRegisterEntries_step hname,
    parseRegisterEntries_step hvalue, parseRegisterEntries]

theorem parseRegister_constants (cs : List (Text × Text)) (p : RegisterMapParser) :
    ∃ q, parseRegisterItems (cs.map constantNode) p = .ok q ∧
      Reads p q (if cs = [] then p.fKey else "value".toList) p.fAppName [] [] := by
  induction cs generalizing p with
  | nil => exact ⟨p, rfl, Reads.refl p⟩
  | cons c cs ih =>
      obtain ⟨q, hq, h⟩ := ih { p with fKey := "value".toList, fRegName := c.1 }
      refine ⟨q, ?_, ?_, h.app, h.regs, h.consts⟩
      · rw [List.map_cons, parseRegisterItems_step (parseRegister_constantNode c p)]
        exact hq
      · rw [if_neg (List.cons_ne_nil c cs), h.key]
        split <;> rfl

theorem parseRegister_group (g : ConstantGroup) (p : RegisterMapParser) (h : g.Readable) :
    ∃ q, parseRegister g.entry.2 { p with fKey := g.entry.1 } = .ok q ∧
      Reads p q (if g.constants = [] then g.name else "value".toList) p.fAppName [] [] := by
  obtain ⟨q, hq, hreads⟩ := parseRegister_constants g.constants { p with fKey := g.name }
  refine ⟨q, ?_, hreads.key, hreads.app, hreads.regs, hreads.consts⟩
  rw [ConstantGroup.entry, parseRegister, if_neg h.1, if_neg h.2]
  exact hq

theorem mapM_asString_constants (c : Text × Text) (cs : List (Text × Text)) :
    ((c :: cs).map constantNode).mapM Node.asString =
      .error (.runtimeError "bad conversion".toList) := by
  rw [List.map_cons, List.mapM_cons]
  rfl

/-- An unreadable group of constants ends the walk with an exception. -/
theorem readable_of_ok (g : ConstantGroup) {p q : RegisterMapParser}
    (h : parseRegister g.entry.2 { p with fKey := g.entry.1 } = .ok q) : g.Readable := by
  rw [ConstantGroup.entry, parseRegister] at h
  constructor
  · intro hname
    rw [if_pos hname] at h
    cases hcs : g.constants with
    | nil => rw [hcs] at h; cases h
    | cons c cs => rw [hcs, mapM_asString_constants] at h; cases h
  · intro hname
    have hne : g.name ≠ "access".toList := by
      rw [hname]
      decide
    rw [if_neg hne, if_pos hname] at h
    cases hcs : g.constants with
    | nil => rw [hcs] at h; cases h
    | cons c cs => rw [hcs, mapM_asString_constants] at h; cases h

theorem parseRegister_groups (gs : List ConstantGroup) (p : RegisterMapParser)
    (h : ∀ g ∈ gs, g.Readable) :
    ∃ q, parseRegisterEntries (gs.map ConstantGroup.entry) p = .ok q ∧
      Reads p q (leftByGroups p.fKey gs) p.fAppName [] [] := by
  induction gs generalizing p with
  | nil => exact ⟨p, rfl, Reads.refl p⟩
  | cons g gs ih =>
      obtain ⟨q, hq, hhead⟩ := parseRegister_group g p (h g List.mem_cons_self)
      obtain ⟨s, hs, htail⟩ := ih q fun g' hg' => h g' (List.mem_cons_of_mem g hg')
      have hboth := hhead.trans htail
      refine ⟨s, ?_, ?_, hboth.app.trans hhead.app, hboth.regs, hboth.consts⟩
      · exact (parseRegisterEntries_step hq).trans hs
      · rw [hboth.key, hhead.key, leftByGroups_cons p.fKey g gs]

theorem parseRegister_field (f : AppField) (p : RegisterMapParser) (h : f.Readable) :
    ∃ q, parseRegister f.node { p with fKey := f.key } = .ok q ∧
      Reads p q f.lastKey p.fAppName (f.strayRegisters p.fAppName) [] := by
  cases f with
  | baseAddress address =>
      exact ⟨_, parseRegister_scalar address { p with fKey := "base_address".toList } (by simp),
        rfl, rfl, rfl, rfl⟩
  | port address =>
      exact ⟨_, parseRegister_scalar address { p with fKey := "port".toList } (by simp),
        rfl, rfl, rfl, rfl⟩
  | constants gs =>
      obtain ⟨q, hq, hreads⟩ := parseRegister_groups gs { p with fKey := "constants".toList } h
      refine ⟨q, ?_, hreads.key, hreads.app, hreads.regs, hreads.consts⟩
      rw [AppField.node, parseRegister]
      exact hq
  | registers rs =>
      obtain ⟨q, hq, hreads⟩ := reads_registers rs { p with fKey := "registers".toList }
      exact ⟨q, (parseRegister_items _ _ rfl).trans hq, hreads.key, hreads.app, hreads.regs,
        hreads.consts⟩

theorem parseRegister_fields (fs : List AppField) (p : RegisterMapParser)
    (h : ∀ f ∈ fs, f.Readable) :
    ∃ q, parseRegisterEntries (fs.map AppField.entry) p = .ok q ∧
      Reads p q ((fs.getLast?.map AppField.lastKey).getD p.fKey) p.fAppName
        (fs.flatMap (AppField.strayRegisters p.fAppName)) [] := by
  induction fs generalizing p with
  | nil => exact ⟨p, rfl, Reads.refl p⟩
  | cons f fs ih =>
      obtain ⟨q, hq, hhead⟩ := parseRegister_field f p (h f List.mem_cons_self)
      obtain ⟨s, hs, htail⟩ := ih q fun f' hf' => h f' (List.mem_cons_of_mem f hf')
      have hboth := hhead.trans htail
      refine ⟨s, ?_, hboth.key.trans ?_, hboth.app.trans hhead.app, ?_, hboth.consts⟩
      · rw [List.map_cons, AppField.entry, parseRegisterEntries_step hq]
        exact hs
      · rw [hhead.key, List.getLast?_cons]
        cases fs.getLast? <;> rfl
      · rw [List.flatMap_cons, hboth.regs, hhead.app]

theorem parseRegister_application (a : Application) (p : RegisterMapParser) (h : a.Readable) :
    ∃ q, parseRegister a.node p = .ok q ∧
      Reads p q a.lastKey p.fAppName (a.strayRegisters p.fAppName) [] := by
  have hname : parseRegister (.scalar a.name) { p with fKey := "name".toList } =
      .ok { p with fKey := "name".toList, fRegName := a.name } := by
    rw [parseRegister, if_pos rfl]
  obtain ⟨q, hq, hreads⟩ := parseRegister_fields a.fields
    { p with fKey := "name".toList, fRegName := a.name } h
  refine ⟨q, ?_, hreads.key.trans a.lastKey_eq.symm, hreads.app, hreads.regs, hreads.consts⟩
  rw [Application.node, parseRegister, Application.entries, parseRegisterEntries_step hname]
  exact hq

/-! What stops the walk of an application stops it whatever stands around it. -/

theorem parseRegisterEntries_ok {entries : List (Text × Node)} {p s : RegisterMapParser}
    (h : parseRegisterEntries entries p = .ok s) :
    ∀ entry ∈ entries, ∃ q q' : RegisterMapParser,
      parseRegister entry.2 { q with fKey := entry.1 } = .ok q' := by
  induction entries generalizing p with
  | nil => intro entry hentry; cases hentry
  | cons head rest ih =>
      obtain ⟨key, value⟩ := head
      rw [parseRegisterEntries] at h
      cases hhead : parseRegister value { p with fKey := key } with
      | error e => rw [hhead] at h; cases h
      | ok q =>
          rw [hhead] at h
          intro entry hentry
          cases List.mem_cons.mp hentry with
          | inl heq => subst heq; exact ⟨p, q, hhead⟩
          | inr hrest => exact ih h entry hrest

theorem application_readable_of_ok (a : Application) {p s : RegisterMapParser}
    (h : parseRegister a.node p = .ok s) : a.Readable := by
  rw [Application.node, parseRegister] at h
  intro f hf
  obtain ⟨q, q', hfield⟩ := parseRegisterEntries_ok h f.entry
    (List.mem_cons_of_mem _ (List.mem_map.mpr ⟨f, hf, rfl⟩))
  cases f with
  | baseAddress address => trivial
  | port address => trivial
  | registers rs => trivial
  | constants gs =>
      rw [AppField.entry, AppField.node, parseRegister] at hfield
      intro g hg
      obtain ⟨r, r', hgroup⟩ := parseRegisterEntries_ok hfield g.entry
        (List.mem_map.mpr ⟨g, hg, rfl⟩)
      exact readable_of_ok g hgroup

end Userworks.E16
