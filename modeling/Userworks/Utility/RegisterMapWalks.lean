import Userworks.Utility.RegisterMapReading

/-!
Walks through the list of applications. It is walked once for each of its
elements, and each walk starts with the key that the walk before has left over.
-/
namespace Userworks.E16

open RegisterMapParser

/-! ### One walk -/

theorem leftOver_cons (key : Text) (a : Application) (rest : List Application) :
    leftOver key (a :: rest) = leftOver a.lastKey rest := by
  rw [leftOver, leftOver, List.getLast?_cons]
  cases rest.getLast? <;> rfl

theorem strayKeys_of_declaresNothing {a : Application} (h : a.DeclaresNothing) (app : Text) :
    a.strayKeys app = [] := by
  obtain ⟨hregs, hconsts⟩ := h
  rw [Application.declaresRegisters, List.flatMap_eq_nil_iff] at hregs
  rw [Application.declaresConstants, List.flatMap_eq_nil_iff] at hconsts
  rw [Application.strayKeys, List.flatMap_eq_nil_iff]
  intro f hf
  have hreg := hregs f hf
  have hconst := hconsts f hf
  cases f with
  | baseAddress address => rfl
  | port address => rfl
  | constants gs =>
      rw [AppField.declaresConstants, List.flatMap_eq_nil_iff] at hconst
      rw [AppField.strayKeys, List.map_eq_nil_iff, List.flatMap_eq_nil_iff]
      intro g hg
      exact List.map_eq_nil_iff.mpr (List.map_eq_nil_iff.mp (hconst g hg))
  | registers rs =>
      rw [AppField.declaresRegisters, List.flatMap_eq_nil_iff] at hreg
      rw [AppField.strayKeys, List.flatMap_eq_nil_iff]
      intro r hr
      cases hreg r hr

/-- A skipped application that declares nothing leaves no trace but its last key. -/
theorem reads_skipped (a : Application) (p : RegisterMapParser)
    (hkey : p.fKey = "constants".toList) (h : a.DeclaresNothing) :
    ∃ q, parseApp a.node p = .ok q ∧ Reads p q a.lastKey p.fAppName [] [] := by
  obtain ⟨es, hreads, hes⟩ := strays_application a p
  have hnone : es = [] := by
    rw [← List.map_eq_nil_iff (f := Prod.fst), List.eq_nil_iff_forall_not_mem]
    intro k hk
    rw [hes, strayKeys_of_declaresNothing h] at hk
    cases hk
  rw [hnone] at hreads
  exact ⟨_, parseApp_constants a.entries p hkey, hreads⟩

theorem reads_applications (apps : List Application) (p : RegisterMapParser)
    (h : ∀ a ∈ skipped p.fKey apps, a.DeclaresNothing) :
    ∃ q, parseAppItems (apps.map Application.node) p = .ok q ∧
      Reads p q (leftOver p.fKey apps) (lastRead p.fKey p.fAppName apps)
        (declaredRegisters apps) (declaredConstants apps) := by
  induction apps generalizing p with
  | nil => exact ⟨p, rfl, Reads.refl p⟩
  | cons a rest ih =>
      have hhead : ∃ q, parseApp a.node p = .ok q ∧
          Reads p q a.lastKey (if p.fKey = "constants".toList then p.fAppName else a.name)
            a.declaresRegisters a.declaresConstants := by
        by_cases hkey : p.fKey = "constants".toList
        · have hnothing : a.DeclaresNothing := h a (by simp [skipped, hkey])
          rw [if_pos hkey, hnothing.1, hnothing.2]
          exact reads_skipped a p hkey hnothing
        · rw [if_neg hkey]
          exact reads_application a p hkey
      obtain ⟨q, hq, hreads⟩ := hhead
      obtain ⟨s, hs, htail⟩ := ih q (by
        intro b hb
        rw [hreads.key] at hb
        exact h b (List.mem_append_right _ hb))
      have hboth := hreads.trans htail
      rw [hreads.key, hreads.app] at hboth
      refine ⟨s, (parseAppItems_step hq).trans hs, ?_⟩
      rw [leftOver_cons]
      exact hboth

/-- With `registers` left over all the registers are put down to one application. -/
theorem strays_applications (apps : List Application) (p : RegisterMapParser)
    (h : ∀ a ∈ apps, a.Readable) :
    ∃ q, parseRegisterItems (apps.map Application.node) p = .ok q ∧
      Reads p q (leftOver p.fKey apps) p.fAppName
        (apps.flatMap (Application.strayRegisters p.fAppName)) [] := by
  induction apps generalizing p with
  | nil => exact ⟨p, rfl, Reads.refl p⟩
  | cons a rest ih =>
      obtain ⟨q, hq, hhead⟩ := parseRegister_application a p (h a List.mem_cons_self)
      obtain ⟨s, hs, htail⟩ := ih q fun b hb => h b (List.mem_cons_of_mem a hb)
      have hboth := hhead.trans htail
      rw [hhead.key, hhead.app] at hboth
      refine ⟨s, (parseRegisterItems_step hq).trans hs, ?_⟩
      rw [leftOver_cons]
      exact hboth

/-! ### The application at the end of a walk -/

theorem lastRead_lastRead (key app : Text) (apps : List Application) :
    lastRead key (lastRead key app apps) apps = lastRead key app apps := by
  induction apps generalizing key app with
  | nil => rfl
  | cons a rest ih =>
      rw [lastRead, lastRead]
      by_cases hkey : key = "constants".toList
      · rw [if_pos hkey, if_pos hkey, ih]
      · rw [if_neg hkey, if_neg hkey]

/-- A walk that starts where the first one ended ends there again. -/
theorem lastRead_again (key app : Text) (apps : List Application) :
    lastRead key (lastRead "applications".toList app apps) apps =
      lastRead "applications".toList app apps := by
  cases apps with
  | nil => rfl
  | cons a rest =>
      have hne : "applications".toList ≠ "constants".toList := by decide
      by_cases hkey : key = "constants".toList
      · rw [lastRead, lastRead, if_pos hkey, if_neg hne, lastRead_lastRead]
      · rw [lastRead, lastRead, if_neg hkey, if_neg hne]

theorem lastRead_start {apps : List Application} (h : apps ≠ []) (app app' : Text) :
    lastRead "applications".toList app apps = lastRead "applications".toList app' apps := by
  cases apps with
  | nil => exact absurd rfl h
  | cons a rest =>
      have hne : "applications".toList ≠ "constants".toList := by decide
      rw [lastRead, lastRead, if_neg hne, if_neg hne]

theorem skipped_again {key : Text} (hkey : key ≠ "constants".toList) (apps : List Application) :
    skipped key apps = skipped "applications".toList apps := by
  cases apps with
  | nil => rfl
  | cons a rest => rw [skipped, skipped, if_neg hkey, if_neg (by decide)]

/-! ### All walks -/

/-- No application is met with the wrong key left over, or the entries that come of it are
there already. -/
structure Layout (apps : List Application) : Prop where
  follows : ∀ a ∈ skipped "applications".toList apps, a.DeclaresNothing
  constants : 2 ≤ apps.length → leftOver [] apps = "constants".toList → ∀ a ∈ apps.head?,
    ∀ k ∈ a.strayKeys (lastRead "applications".toList [] apps),
      k ∈ (declaredConstants apps).map Prod.fst
  registers : 2 ≤ apps.length → leftOver [] apps = "registers".toList → ∀ a ∈ apps,
    a.Readable ∧ ∀ e ∈ a.strayRegisters (lastRead "applications".toList [] apps),
      e.1 ∈ (declaredRegisters apps).map Prod.fst

/-- Where the first walk ends. -/
structure Settled (apps : List Application) (p : RegisterMapParser) : Prop where
  key : p.fKey = leftOver [] apps
  app : p.fAppName = lastRead "applications".toList [] apps
  regs : p.fRegisters = emplaceAll [] (declaredRegisters apps)
  consts : p.fConstants = emplaceAll [] (declaredConstants apps)

theorem leftOver_again {apps : List Application} (h : apps ≠ []) (key key' : Text) :
    leftOver key apps = leftOver key' apps := by
  cases apps with
  | nil => exact absurd rfl h
  | cons a rest => rw [leftOver_cons, leftOver_cons]

theorem first_walk {apps : List Application} (hne : apps ≠ [])
    (h : ∀ a ∈ skipped "applications".toList apps, a.DeclaresNothing) {p : RegisterMapParser}
    (hkey : p.fKey = "applications".toList) (hregs : p.fRegisters = [])
    (hconsts : p.fConstants = []) :
    ∃ q, parseApp (.seq (apps.map Application.node)) p = .ok q ∧ Settled apps q := by
  obtain ⟨q, hq, hreads⟩ := reads_applications apps p (by rw [hkey]; exact h)
  rw [hkey] at hreads
  refine ⟨q, ?_, hreads.key.trans (leftOver_again hne _ _),
    hreads.app.trans (lastRead_start hne _ _), ?_, ?_⟩
  · rw [parseApp, if_neg (by rw [hkey]; decide)]
    exact hq
  · rw [hreads.regs, hregs]
  · rw [hreads.consts, hconsts]

/-- Entries under keys that are there change nothing. -/
theorem Settled.of_reads {apps : List Application} {p q : RegisterMapParser} {key app : Text}
    {regs consts : List (Text × Text)} (h : Settled apps p) (hreads : Reads p q key app regs consts)
    (hkey : key = leftOver [] apps) (happ : app = lastRead "applications".toList [] apps)
    (hregs : ∀ e ∈ regs, e.1 ∈ (declaredRegisters apps).map Prod.fst)
    (hconsts : ∀ e ∈ consts, e.1 ∈ (declaredConstants apps).map Prod.fst) : Settled apps q := by
  refine ⟨hreads.key.trans hkey, hreads.app.trans happ, ?_, ?_⟩
  · rw [hreads.regs, h.regs]
    apply emplaceAll_known
    intro e he
    rw [lookup_emplaceAll, List.lookup_nil, Option.none_or, isSome_lookup_iff]
    exact hregs e he
  · rw [hreads.consts, h.consts]
    apply emplaceAll_known
    intro e he
    rw [lookup_emplaceAll, List.lookup_nil, Option.none_or, isSome_lookup_iff]
    exact hconsts e he

theorem mem_keys {table : List (Text × Text)} {e : Text × Text} (h : e ∈ table) :
    e.1 ∈ table.map Prod.fst := List.mem_map.mpr ⟨e, h, rfl⟩

/-- A walk that starts with `constants` left over takes the first application for constants. -/
theorem walk_constants {a : Application} {rest : List Application} {p : RegisterMapParser}
    (hkey : p.fKey = "constants".toList)
    (h : ∀ b ∈ skipped "applications".toList (a :: rest), b.DeclaresNothing) :
    ∃ q es, parseApp (.seq ((a :: rest).map Application.node)) p = .ok q ∧
      Reads p q (leftOver [] (a :: rest)) (lastRead "constants".toList p.fAppName (a :: rest))
        (declaredRegisters rest) (es ++ declaredConstants rest) ∧
      ∀ k, k ∈ es.map Prod.fst ↔ k ∈ a.strayKeys p.fAppName := by
  obtain ⟨es, hhead, hes⟩ := strays_application a p
  obtain ⟨q, hq, htail⟩ := reads_applications rest (parseConstantEntries a.entries p) (by
    rw [hhead.key]
    intro b hb
    exact h b (List.mem_append_right _ hb))
  have hboth := hhead.trans htail
  rw [hhead.key, hhead.app] at hboth
  refine ⟨q, es, ?_, ?_, hes⟩
  · rw [parseApp, if_neg (by rw [hkey]; decide)]
    exact (parseAppItems_step (parseApp_constants a.entries p hkey)).trans hq
  · rw [leftOver_cons, lastRead, if_pos rfl]
    exact hboth

section

variable {apps : List Application} {p : RegisterMapParser} (hlayout : Layout apps)
  (hmany : 2 ≤ apps.length) (h : Settled apps p)

include hlayout hmany h

/-- The key that was left takes the applications for registers. -/
theorem next_walk_registers (hregisters : p.fKey = "registers".toList) :
    ∃ q, parseApp (.seq (apps.map Application.node)) p = .ok q ∧ Settled apps q := by
  have hne : apps ≠ [] := List.ne_nil_of_length_pos (by omega)
  have hstray := hlayout.registers hmany (h.key.symm.trans hregisters)
  obtain ⟨q, hq, hreads⟩ := strays_applications apps p fun a ha => (hstray a ha).1
  refine ⟨q, (parseApp_registers _ p hregisters).trans hq,
    h.of_reads hreads (leftOver_again hne _ _) h.app ?_ ?_⟩
  · intro e he
    obtain ⟨a, ha, hea⟩ := List.mem_flatMap.mp he
    rw [h.app] at hea
    exact (hstray a ha).2 e hea
  · intro e he
    cases he

/-- The key that was left takes the first application for groups of constants. -/
theorem next_walk_constants (hconstants : p.fKey = "constants".toList) :
    ∃ q, parseApp (.seq (apps.map Application.node)) p = .ok q ∧ Settled apps q := by
  cases apps with
  | nil => cases hmany
  | cons a rest =>
      have hstray := hlayout.constants hmany (h.key.symm.trans hconstants) a rfl
      obtain ⟨q, es, hq, hreads, hes⟩ := walk_constants hconstants hlayout.follows
      refine ⟨q, hq, h.of_reads hreads rfl ?_ ?_ ?_⟩
      · rw [h.app, lastRead_again]
      · intro e he
        rw [declaredRegisters, List.flatMap_cons, List.map_append]
        exact List.mem_append_right _ (mem_keys he)
      · intro e he
        cases List.mem_append.mp he with
        | inl hes' =>
            apply hstray
            rw [← h.app, ← hes]
            exact mem_keys hes'
        | inr hrest =>
            rw [declaredConstants, List.flatMap_cons, List.map_append]
            exact List.mem_append_right _ (mem_keys hrest)

theorem next_walk :
    ∃ q, parseApp (.seq (apps.map Application.node)) p = .ok q ∧ Settled apps q := by
  by_cases hregisters : p.fKey = "registers".toList
  · exact next_walk_registers hlayout hmany h hregisters
  by_cases hconstants : p.fKey = "constants".toList
  · exact next_walk_constants hlayout hmany h hconstants
  have hne : apps ≠ [] := List.ne_nil_of_length_pos (by omega)
  obtain ⟨q, hq, hreads⟩ := reads_applications apps p (by
    rw [skipped_again hconstants]
    exact hlayout.follows)
  refine ⟨q, ?_, h.of_reads hreads (leftOver_again hne _ _) ?_ ?_ ?_⟩
  · rw [parseApp, if_neg hregisters]
    exact hq
  · rw [h.app, lastRead_again]
  · intro e he
    exact mem_keys he
  · intro e he
    exact mem_keys he

end

theorem all_walks {apps : List Application} (hlayout : Layout apps) (hmany : 2 ≤ apps.length)
    (times : Nat) {p : RegisterMapParser} (h : Settled apps p) :
    ∃ q, parseApps (apps.map Application.node) times p = .ok q ∧ Settled apps q := by
  induction times generalizing p with
  | zero => exact ⟨p, rfl, h⟩
  | succ times ih =>
      obtain ⟨q, hq, hsettled⟩ := next_walk hlayout hmany h
      obtain ⟨s, hs, hend⟩ := ih hsettled
      refine ⟨s, ?_, hend⟩
      rw [parseApps, hq]
      exact hs

end Userworks.E16
