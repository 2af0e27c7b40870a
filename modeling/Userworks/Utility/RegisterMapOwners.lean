import Userworks.Utility.RegisterMapAttribution

/-!
Who the entries in the tables belong to. An application that is met with
`constants` left over is never read in full, so what it declares is missing; and
an entry that is put down to the wrong application stays in the table.
-/
namespace Userworks.E16

open RegisterMapParser

variable {asInt : Text → Option Int}

/-! ### What the walkers keep, whatever they walk through -/

structure Stable (I : RegisterMapParser → Prop) : Prop where
  key : ∀ p k, I p → I { p with fKey := k }
  constKV : ∀ p kv, I p → I { p with fConstKV := kv }
  constGroup : ∀ p group, I p → I { p with fConstGroup := group }
  regName : ∀ p name, I p → I { p with fRegName := name }
  constant : ∀ p, I p → I p.emplaceConstant
  access : ∀ p v q, I p → parseAccess v p = .ok q → I q
  address : ∀ p v q, I p → parseAddress v p = .ok q → I q

section

variable {I : RegisterMapParser → Prop}

mutual

theorem parseConstant_keeps (hI : Stable I) : ∀ (n : Node) (p : RegisterMapParser),
    I p → I (parseConstant n p)
  | .map entries, p, h => by
      rw [parseConstant]
      exact parseConstantEntries_keeps hI entries p h
  | .seq items, p, h => by
      rw [parseConstant]
      exact parseConstantItems_keeps hI items _ (hI.constGroup p _ h)
  | .scalar text, p, h => by
      rw [parseConstant]
      split
      · exact hI.constKV p _ h
      · split
        · exact hI.constKV p _ h
        · exact h
  | .null, p, h => by
      rw [parseConstant]
      exact h

theorem parseConstantEntries_keeps (hI : Stable I) :
    ∀ (entries : List (Text × Node)) (p : RegisterMapParser),
      I p → I (parseConstantEntries entries p)
  | [], p, h => by
      rw [parseConstantEntries]
      exact h
  | (key, value) :: rest, p, h => by
      rw [parseConstantEntries]
      exact parseConstantEntries_keeps hI rest _
        (parseConstant_keeps hI value _ (hI.key p key h))

theorem parseConstantItems_keeps (hI : Stable I) :
    ∀ (items : List Node) (p : RegisterMapParser), I p → I (parseConstantItems items p)
  | [], p, h => by
      rw [parseConstantItems]
      exact h
  | n :: rest, p, h => by
      rw [parseConstantItems]
      exact parseConstantItems_keeps hI rest _ (hI.constant _ (parseConstant_keeps hI n p h))

end

/-- A step of a walk that came to its end did so itself. -/
theorem bind_ok {α β : Type} {x : Except Fault α} {f : α → Except Fault β} {b : β}
    (h : x >>= f = .ok b) : ∃ a, x = .ok a ∧ f a = .ok b := by
  cases x with
  | error fault => cases h
  | ok a => exact ⟨a, rfl, h⟩

mutual

theorem parseRegister_keeps (hI : Stable I) : ∀ (n : Node) (p q : RegisterMapParser),
    I p → parseRegister n p = .ok q → I q
  | .map entries, p, q, h, hq => by
      rw [parseRegister] at hq
      exact parseRegisterEntries_keeps hI entries p q h hq
  | .seq items, p, q, h, hq => by
      rw [parseRegister] at hq
      split at hq
      · obtain ⟨v, -, hv⟩ := bind_ok hq
        exact hI.access p v q h hv
      · split at hq
        · obtain ⟨v, -, hv⟩ := bind_ok hq
          exact hI.address p v q h hv
        · exact parseRegisterItems_keeps hI items p q h hq
  | .scalar text, p, q, h, hq => by
      rw [parseRegister] at hq
      split at hq
      · cases hq
        exact hI.regName p text h
      · cases hq
        exact h
  | .null, p, q, h, hq => by
      rw [parseRegister] at hq
      cases hq
      exact h

theorem parseRegisterEntries_keeps (hI : Stable I) :
    ∀ (entries : List (Text × Node)) (p q : RegisterMapParser),
      I p → parseRegisterEntries entries p = .ok q → I q
  | [], p, q, h, hq => by
      rw [parseRegisterEntries] at hq
      cases hq
      exact h
  | (key, value) :: rest, p, q, h, hq => by
      rw [parseRegisterEntries] at hq
      obtain ⟨s, hs, hrest⟩ := bind_ok hq
      exact parseRegisterEntries_keeps hI rest s q
        (parseRegister_keeps hI value _ s (hI.key p key h) hs) hrest

theorem parseRegisterItems_keeps (hI : Stable I) :
    ∀ (items : List Node) (p q : RegisterMapParser),
      I p → parseRegisterItems items p = .ok q → I q
  | [], p, q, h, hq => by
      rw [parseRegisterItems] at hq
      cases hq
      exact h
  | n :: rest, p, q, h, hq => by
      rw [parseRegisterItems] at hq
      obtain ⟨s, hs, hrest⟩ := bind_ok hq
      exact parseRegisterItems_keeps hI rest s q (parseRegister_keeps hI n p s h hs) hrest

end

structure StableApp (I : RegisterMapParser → Prop) : Prop extends Stable I where
  appName : ∀ p name, I p → I { p with fAppName := name }
  register : ∀ p key value, I p → I (p.emplaceRegister key value)

mutual

theorem parseApp_keeps (hI : StableApp I) : ∀ (n : Node) (p q : RegisterMapParser),
    I p → parseApp n p = .ok q → I q
  | .map entries, p, q, h, hq => by
      rw [parseApp] at hq
      split at hq
      · cases hq
        exact parseConstantEntries_keeps hI.toStable entries p h
      · exact parseAppEntries_keeps hI entries p q h hq
  | .seq items, p, q, h, hq => by
      rw [parseApp] at hq
      split at hq
      · exact parseRegister_keeps hI.toStable _ p q h hq
      · exact parseAppItems_keeps hI items p q h hq
  | .scalar text, p, q, h, hq => by
      rw [parseApp] at hq
      split at hq
      · cases hq
        exact hI.appName p text h
      split at hq
      · cases hq
        exact hI.register p _ text h
      split at hq
      · cases hq
        exact hI.register p _ text h
      · cases hq
        exact h
  | .null, p, q, h, hq => by
      rw [parseApp] at hq
      cases hq
      exact h

theorem parseAppEntries_keeps (hI : StableApp I) :
    ∀ (entries : List (Text × Node)) (p q : RegisterMapParser),
      I p → parseAppEntries entries p = .ok q → I q
  | [], p, q, h, hq => by
      rw [parseAppEntries] at hq
      cases hq
      exact h
  | (key, value) :: rest, p, q, h, hq => by
      rw [parseAppEntries] at hq
      obtain ⟨s, hs, hrest⟩ := bind_ok hq
      exact parseAppEntries_keeps hI rest s q
        (parseApp_keeps hI value _ s (hI.key p key h) hs) hrest

theorem parseAppItems_keeps (hI : StableApp I) :
    ∀ (items : List Node) (p q : RegisterMapParser),
      I p → parseAppItems items p = .ok q → I q
  | [], p, q, h, hq => by
      rw [parseAppItems] at hq
      cases hq
      exact h
  | n :: rest, p, q, h, hq => by
      rw [parseAppItems] at hq
      obtain ⟨s, hs, hrest⟩ := bind_ok hq
      exact parseAppItems_keeps hI rest s q (parseApp_keeps hI n p s h hs) hrest

end

theorem parseApps_keeps (hI : StableApp I) (items : List Node) (times : Nat)
    (p q : RegisterMapParser) (h : I p) (hq : parseApps items times p = .ok q) : I q := by
  induction times generalizing p with
  | zero =>
      cases hq
      exact h
  | succ times ih =>
      rw [parseApps] at hq
      obtain ⟨s, hs, hrest⟩ := bind_ok hq
      exact ih s (parseApp_keeps hI _ p s h hs) hrest

end

/-! ### Owners -/

/-- The key begins with the name of the application. -/
def OwnedBy (app key : Text) : Prop := ∃ rest, key = "app=".toList ++ data app ++ ':' :: rest

theorem ownedBy_of_colon (app : Text) {colon suffix : Text} (h : colon = ':' :: suffix)
    (rest : Text) :
    OwnedBy app ("app=".toList ++ data app ++ colon ++ rest) := by
  refine ⟨suffix ++ rest, ?_⟩
  rw [h, List.append_assoc, List.cons_append]

theorem ownedBy_keyConst (app group name : Text) : OwnedBy app (keyConst app group name) := by
  have h := ownedBy_of_colon app (show ":const=".toList = ':' :: "const=".toList by decide)
    (data group ++ ":".toList ++ data name)
  rw [← List.append_assoc, ← List.append_assoc] at h
  exact h

theorem ownedBy_keyReg (app reg suffix : Text) : OwnedBy app (keyReg app reg ++ suffix) := by
  have h := ownedBy_of_colon app (show ":reg=".toList = ':' :: "reg=".toList by decide)
    (data reg ++ suffix)
  rw [← List.append_assoc] at h
  exact h

theorem ownedBy_keyBaseAddress (app : Text) : OwnedBy app (keyBaseAddress app) := by
  have h := ownedBy_of_colon app
    (show ":base_address".toList = ':' :: "base_address".toList by decide) []
  rw [List.append_nil] at h
  exact h

theorem ownedBy_keyPort (app : Text) : OwnedBy app (keyPort app) := by
  have h := ownedBy_of_colon app (show ":port".toList = ':' :: "port".toList by decide) []
  rw [List.append_nil] at h
  exact h

theorem ownedBy_declaresRegisters (a : Application) :
    ∀ e ∈ a.declaresRegisters, OwnedBy a.name e.1 := by
  intro e he
  obtain ⟨f, -, hf⟩ := List.mem_flatMap.mp he
  cases f with
  | baseAddress address =>
      rw [List.mem_singleton.mp hf]
      exact ownedBy_keyBaseAddress a.name
  | port address =>
      rw [List.mem_singleton.mp hf]
      exact ownedBy_keyPort a.name
  | constants gs => cases hf
  | registers rs =>
      obtain ⟨r, -, hr⟩ := List.mem_flatMap.mp hf
      simp only [Register.declares, List.mem_cons, List.not_mem_nil, or_false] at hr
      obtain h | h | h | h := hr <;> rw [h] <;> exact ownedBy_keyReg a.name r.name _

theorem ownedBy_declaresConstants (a : Application) :
    ∀ e ∈ a.declaresConstants, OwnedBy a.name e.1 := by
  intro e he
  obtain ⟨f, -, hf⟩ := List.mem_flatMap.mp he
  cases f with
  | baseAddress address => cases hf
  | port address => cases hf
  | registers rs => cases hf
  | constants gs =>
      obtain ⟨g, -, hg⟩ := List.mem_flatMap.mp hf
      obtain ⟨c, -, rfl⟩ := List.mem_map.mp hg
      exact ownedBy_keyConst a.name g.name c.1

theorem parseAccess_emplaces {v : List Text} {p q : RegisterMapParser}
    (h : parseAccess v p = .ok q) : ∃ key value key' value', OwnedBy p.fAppName key ∧
      OwnedBy p.fAppName key' ∧ q = (p.emplaceRegister key value).emplaceRegister key' value' := by
  unfold parseAccess at h
  split at h
  · cases h
    exact ⟨_, _, _, _, ownedBy_keyReg _ _ _, ownedBy_keyReg _ _ _, rfl⟩
  · cases h
    exact ⟨_, _, _, _, ownedBy_keyReg _ _ _, ownedBy_keyReg _ _ _, rfl⟩
  · cases h

theorem parseAddress_emplaces {v : List Text} {p q : RegisterMapParser}
    (h : parseAddress v p = .ok q) : ∃ key value key' value', OwnedBy p.fAppName key ∧
      OwnedBy p.fAppName key' ∧ q = (p.emplaceRegister key value).emplaceRegister key' value' := by
  unfold parseAddress at h
  split at h
  · cases h
    exact ⟨_, _, _, _, ownedBy_keyReg _ _ _, ownedBy_keyReg _ _ _, rfl⟩
  · cases h
    exact ⟨_, _, _, _, ownedBy_keyReg _ _ _, ownedBy_keyReg _ _ _, rfl⟩
  · cases h

/-! ### Entries stay -/

theorem isSome_lookup_emplace {table : List (Text × Text)} {k : Text} (key value : Text)
    (h : (table.lookup k).isSome) : ((emplace table key value).lookup k).isSome := by
  rw [lookup_emplace, Option.or_of_isSome h]
  exact h

theorem stableApp_register (k : Text) : StableApp fun p => (p.fRegisters.lookup k).isSome where
  key _ _ h := h
  constKV _ _ h := h
  constGroup _ _ h := h
  regName _ _ h := h
  constant _ h := h
  access p v q h hq := by
    obtain ⟨_, _, _, _, -, -, rfl⟩ := parseAccess_emplaces hq
    exact isSome_lookup_emplace _ _ (isSome_lookup_emplace _ _ h)
  address p v q h hq := by
    obtain ⟨_, _, _, _, -, -, rfl⟩ := parseAddress_emplaces hq
    exact isSome_lookup_emplace _ _ (isSome_lookup_emplace _ _ h)
  appName _ _ h := h
  register _ _ _ h := isSome_lookup_emplace _ _ h

theorem stableApp_constant (k : Text) : StableApp fun p => (p.fConstants.lookup k).isSome where
  key _ _ h := h
  constKV _ _ h := h
  constGroup _ _ h := h
  regName _ _ h := h
  constant _ h := isSome_lookup_emplace _ _ h
  access p v q h hq := by
    obtain ⟨_, _, _, _, -, -, rfl⟩ := parseAccess_emplaces hq
    exact h
  address p v q h hq := by
    obtain ⟨_, _, _, _, -, -, rfl⟩ := parseAddress_emplaces hq
    exact h
  appName _ _ h := h
  register _ _ _ h := h

/-! ### Entries belong to applications that are read in full -/

def Owned (owners : List Text) (table : List (Text × Text)) : Prop :=
  ∀ e ∈ table, ∃ app ∈ owners, OwnedBy app e.1

theorem Owned.emplace {owners : List Text} {table : List (Text × Text)} {app key : Text}
    (h : Owned owners table) (happ : app ∈ owners) (hkey : OwnedBy app key) (value : Text) :
    Owned owners (emplace table key value) := by
  rw [E16.emplace]
  split
  · exact h
  · intro e he
    cases List.mem_append.mp he with
    | inl hold => exact h e hold
    | inr hnew =>
        rw [List.mem_singleton.mp hnew]
        exact ⟨app, happ, hkey⟩

theorem Owned.emplaceAll {owners : List Text} {table es : List (Text × Text)} {app : Text}
    (h : Owned owners table) (happ : app ∈ owners) (hes : ∀ e ∈ es, OwnedBy app e.1) :
    Owned owners (emplaceAll table es) := by
  induction es generalizing table with
  | nil => exact h
  | cons e es ih =>
      exact ih (h.emplace happ (hes e List.mem_cons_self) e.2)
        fun e' he' => hes e' (List.mem_cons_of_mem e he')

structure Within (owners : List Text) (p : RegisterMapParser) : Prop where
  app : p.fAppName ∈ owners
  regs : Owned owners p.fRegisters
  consts : Owned owners p.fConstants

theorem stable_within (owners : List Text) : Stable (Within owners) where
  key _ _ h := ⟨h.app, h.regs, h.consts⟩
  constKV _ _ h := ⟨h.app, h.regs, h.consts⟩
  constGroup _ _ h := ⟨h.app, h.regs, h.consts⟩
  regName _ _ h := ⟨h.app, h.regs, h.consts⟩
  constant _ h := ⟨h.app, h.regs, h.consts.emplace h.app (ownedBy_keyConst _ _ _) _⟩
  access p v q h hq := by
    obtain ⟨_, _, _, _, hkey, hkey', rfl⟩ := parseAccess_emplaces hq
    exact ⟨h.app, (h.regs.emplace h.app hkey _).emplace h.app hkey' _, h.consts⟩
  address p v q h hq := by
    obtain ⟨_, _, _, _, hkey, hkey', rfl⟩ := parseAddress_emplaces hq
    exact ⟨h.app, (h.regs.emplace h.app hkey _).emplace h.app hkey' _, h.consts⟩

/-- The applications that are not met with `constants` left over. -/
def readInFull : Text → List Application → List Application
  | _, [] => []
  | key, a :: rest => (if key = "constants".toList then [] else [a]) ++ readInFull a.lastKey rest

theorem readInFull_subset (key : Text) (apps : List Application) :
    ∀ a ∈ readInFull key apps, a ∈ readInFull "applications".toList apps := by
  cases apps with
  | nil => exact fun a ha => ha
  | cons b rest =>
      intro a ha
      rw [readInFull, if_neg (by decide)]
      cases List.mem_append.mp ha with
      | inl hhead =>
          split at hhead
          · cases hhead
          · exact List.mem_append_left _ hhead
      | inr hrest => exact List.mem_append_right _ hrest

theorem walk_within {owners : List Text} (apps : List Application) (p : RegisterMapParser)
    (hregs : Owned owners p.fRegisters) (hconsts : Owned owners p.fConstants)
    (hkey : p.fKey = "constants".toList → p.fAppName ∈ owners)
    (hfull : ∀ a ∈ readInFull p.fKey apps, a.name ∈ owners) (hne : apps ≠ []) :
    ∃ q, parseAppItems (apps.map Application.node) p = .ok q ∧ Within owners q := by
  induction apps generalizing p with
  | nil => exact absurd rfl hne
  | cons a rest ih =>
      have hhead : ∃ q, parseApp a.node p = .ok q ∧ Within owners q ∧ q.fKey = a.lastKey := by
        by_cases hconstants : p.fKey = "constants".toList
        · obtain ⟨es, hreads, -⟩ := strays_application a p
          exact ⟨_, parseApp_constants a.entries p hconstants,
            parseConstantEntries_keeps (stable_within owners) a.entries p
              ⟨hkey hconstants, hregs, hconsts⟩, hreads.key⟩
        · have hmem : a.name ∈ owners := by
            apply hfull
            rw [readInFull, if_neg hconstants]
            exact List.mem_append_left _ List.mem_cons_self
          obtain ⟨q, hq, hreads⟩ := reads_application a p hconstants
          refine ⟨q, hq, ⟨?_, ?_, ?_⟩, hreads.key⟩
          · rw [hreads.app]
            exact hmem
          · rw [hreads.regs]
            exact hregs.emplaceAll hmem (ownedBy_declaresRegisters a)
          · rw [hreads.consts]
            exact hconsts.emplaceAll hmem (ownedBy_declaresConstants a)
      obtain ⟨q, hq, hwithin, hleft⟩ := hhead
      by_cases hrest : rest = []
      · subst hrest
        exact ⟨q, parseAppItems_step hq, hwithin⟩
      · obtain ⟨s, hs, hend⟩ := ih q hwithin.regs hwithin.consts (fun _ => hwithin.app) (by
          intro b hb
          rw [hleft] at hb
          exact hfull b (List.mem_append_right _ hb)) hrest
        exact ⟨s, (parseAppItems_step hq).trans hs, hend⟩

end Userworks.E16
