import Mathlib.Data.List.DropRight

/-!
Trimming a list and splitting it at runs of separators. The laws of the two
operations say what they do to a list whose parts are known; every list has such
parts, so the laws leave no choice.
-/
namespace Userworks

variable {α : Type} {p : α → Bool}

/-- `trim p` drops the leading and the trailing elements of `p`. -/
def IsTrim (trim : (α → Bool) → List α → List α) : Prop :=
  ∀ (p : α → Bool) (before body after : List α), (∀ a ∈ before, p a = true) →
    (∀ a ∈ after, p a = true) → (∀ a ∈ body.head?, p a = false) →
    (∀ a ∈ body.getLast?, p a = false) → trim p (before ++ (body ++ after)) = body

/-- `split p` cuts a list at the runs of elements of `p`. A run at an end has an empty part
behind or in front of it, and a list without elements of `p` is one part. -/
structure IsSplit (split : (α → Bool) → List α → List (List α)) : Prop where
  part (p : α → Bool) (l : List α) : (∀ a ∈ l, p a = false) → split p l = [l]
  run (p : α → Bool) (l sep rest : List α) : (∀ a ∈ l, p a = false) → sep ≠ [] →
    (∀ a ∈ sep, p a = true) → (∀ a ∈ rest.head?, p a = false) →
    split p (l ++ (sep ++ rest)) = l :: split p rest

/-! ### Trimming -/

def trimEnds (p : α → Bool) (l : List α) : List α := (l.dropWhile p).rdropWhile p

theorem dropWhile_of_head {l : List α} (h : ∀ a ∈ l.head?, p a = false) : l.dropWhile p = l := by
  cases l with
  | nil => rfl
  | cons a l => exact List.dropWhile_cons_of_neg (Bool.eq_false_iff.mp (h a rfl))

theorem head_dropWhile {l : List α} : ∀ a ∈ (l.dropWhile p).head?, p a = false := by
  intro a ha
  have hnot := List.head?_dropWhile_not p l
  rw [Option.mem_def.mp ha] at hnot
  exact hnot

theorem getLast_rdropWhile {l : List α} : ∀ a ∈ (l.rdropWhile p).getLast?, p a = false := by
  intro a ha
  rw [List.rdropWhile, List.getLast?_reverse] at ha
  exact head_dropWhile a ha

theorem rdropWhile_append_of_all {after : List α} (h : ∀ a ∈ after, p a = true) (l : List α) :
    (l ++ after).rdropWhile p = l.rdropWhile p := by
  rw [List.rdropWhile, List.reverse_append,
    List.dropWhile_append_of_pos fun a ha => h a (List.mem_reverse.mp ha)]
  rfl

theorem rdropWhile_of_getLast {l : List α} (h : ∀ a ∈ l.getLast?, p a = false) :
    l.rdropWhile p = l := by
  rw [List.rdropWhile, dropWhile_of_head fun a ha => h a (by rwa [List.head?_reverse] at ha),
    List.reverse_reverse]

theorem rdropWhile_append_cons (l : List α) {a : α} (ha : p a = false) (l' : List α) :
    (l ++ a :: l').rdropWhile p = l ++ a :: l'.rdropWhile p := by
  have hparts : l ++ a :: l' = (l ++ a :: l'.rdropWhile p) ++ l'.rtakeWhile p := by
    rw [List.append_assoc, List.cons_append, List.rdropWhile_append_rtakeWhile]
  rw [hparts, rdropWhile_append_of_all fun c hc => List.mem_rtakeWhile_imp hc]
  apply rdropWhile_of_getLast
  intro c hc
  rw [List.getLast?_append, List.getLast?_cons] at hc
  cases hlast : (l'.rdropWhile p).getLast? with
  | none =>
      rw [hlast] at hc
      cases hc
      exact ha
  | some last =>
      rw [hlast] at hc
      cases hc
      exact getLast_rdropWhile last hlast

theorem isTrim_trimEnds : IsTrim (α := α) trimEnds := by
  intro p before body after hbefore hafter hhead hlast
  rw [trimEnds, List.dropWhile_append_of_pos hbefore]
  cases body with
  | nil =>
      rw [List.nil_append, List.dropWhile_eq_nil_iff.mpr hafter]
      rfl
  | cons a body =>
      rw [dropWhile_of_head (l := a :: body ++ after) hhead, rdropWhile_append_of_all hafter,
        rdropWhile_of_getLast hlast]

theorem head_of_prefix {l l' : List α} (h : l <+: l') (hhead : ∀ a ∈ l'.head?, p a = false) :
    ∀ a ∈ l.head?, p a = false := by
  obtain ⟨rest, rfl⟩ := h
  intro a ha
  apply hhead
  rw [List.head?_append, Option.mem_def.mp ha]
  rfl

theorem head_trimEnds {l : List α} : ∀ a ∈ (trimEnds p l).head?, p a = false :=
  head_of_prefix (List.rdropWhile_prefix _ _) head_dropWhile

theorem mem_of_mem_trimEnds {l : List α} {a : α} (h : a ∈ trimEnds p l) : a ∈ l :=
  (List.dropWhile_suffix p).subset ((List.rdropWhile_prefix _ _).subset h)

theorem IsTrim.eq {trim : (α → Bool) → List α → List α} (h : IsTrim trim) : trim = trimEnds := by
  funext p l
  have hlaw := h p (l.takeWhile p) (trimEnds p l) ((l.dropWhile p).rtakeWhile p)
    (fun a ha => List.mem_takeWhile_imp ha) (fun a ha => List.mem_rtakeWhile_imp ha)
    head_trimEnds getLast_rdropWhile
  rw [trimEnds, List.rdropWhile_append_rtakeWhile, List.takeWhile_append_dropWhile] at hlaw
  exact hlaw

/-! ### Splitting -/

/-- The parts of a list. With `inRun` the element before it is a separator, and the part that
begins here has been counted. -/
def splitRuns (p : α → Bool) (inRun : Bool) : List α → List (List α)
  | [] => [[]]
  | a :: l =>
      if p a then
        if inRun then splitRuns p true l else [] :: splitRuns p true l
      else (splitRuns p false l).modifyHead (a :: ·)

theorem splitRuns_append_part {l : List α} (hl : ∀ a ∈ l, p a = false) (rest : List α) :
    splitRuns p false (l ++ rest) = (splitRuns p false rest).modifyHead (l ++ ·) := by
  induction l with
  | nil => exact (List.modifyHead_id.symm ▸ rfl)
  | cons a l ih =>
      have ha : ¬p a = true := Bool.eq_false_iff.mp (hl a List.mem_cons_self)
      rw [List.cons_append, splitRuns, if_neg ha, ih fun c hc => hl c (List.mem_cons_of_mem a hc),
        List.modifyHead_modifyHead]
      rfl

theorem splitRuns_append_run {sep : List α} (hsep : ∀ a ∈ sep, p a = true) (rest : List α) :
    splitRuns p true (sep ++ rest) = splitRuns p true rest := by
  induction sep with
  | nil => rfl
  | cons a sep ih =>
      rw [List.cons_append, splitRuns, if_pos (hsep a List.mem_cons_self), if_pos rfl]
      exact ih fun c hc => hsep c (List.mem_cons_of_mem a hc)

/-- Where no separator stands it does not matter whether one came before. -/
theorem splitRuns_of_head {l : List α} (h : ∀ a ∈ l.head?, p a = false) :
    splitRuns p true l = splitRuns p false l := by
  cases l with
  | nil => rfl
  | cons a l =>
      have ha : ¬p a = true := Bool.eq_false_iff.mp (h a rfl)
      rw [splitRuns, splitRuns, if_neg ha, if_neg ha]

theorem isSplit_splitRuns : IsSplit (α := α) fun p => splitRuns p false where
  part p l hl := by
    have hparts := splitRuns_append_part hl []
    rw [List.append_nil] at hparts
    rw [hparts, splitRuns, List.modifyHead_cons, List.append_nil]
  run p l sep rest hl hne hsep hrest := by
    cases sep with
    | nil => exact absurd rfl hne
    | cons a sep =>
        have hsep' := splitRuns_append_run (fun c hc => hsep c (List.mem_cons_of_mem a hc)) rest
        rw [splitRuns_append_part hl, List.cons_append, splitRuns,
          if_pos (hsep a List.mem_cons_self), if_neg Bool.false_ne_true, hsep',
          splitRuns_of_head hrest, List.modifyHead_cons, List.append_nil]

/-- A list is one part, or begins with a part and a run of separators. -/
theorem parts_cases (p : α → Bool) (l : List α) :
    (∀ a ∈ l, p a = false) ∨ ∃ part sep rest, l = part ++ (sep ++ rest) ∧
      (∀ a ∈ part, p a = false) ∧ sep ≠ [] ∧ (∀ a ∈ sep, p a = true) ∧
      ∀ a ∈ rest.head?, p a = false := by
  have hpart : ∀ a ∈ l.takeWhile fun a => !p a, p a = false := by
    intro a ha
    have hnot := List.mem_takeWhile_imp ha
    rwa [Bool.not_eq_true'] at hnot
  cases hbehind : l.dropWhile fun a => !p a with
  | nil =>
      rw [List.dropWhile_eq_nil_iff] at hbehind
      refine Or.inl fun a ha => ?_
      have hnot := hbehind a ha
      rwa [Bool.not_eq_true'] at hnot
  | cons a behind =>
      have ha : p a = true := by
        have hhead := head_dropWhile (p := fun a => !p a) (l := l) a (by rw [hbehind]; rfl)
        rwa [Bool.not_eq_false'] at hhead
      refine Or.inr ⟨l.takeWhile fun a => !p a, a :: behind.takeWhile p, behind.dropWhile p,
        ?_, hpart, List.cons_ne_nil _ _, ?_, head_dropWhile⟩
      · rw [List.cons_append, List.takeWhile_append_dropWhile, ← hbehind,
          List.takeWhile_append_dropWhile]
      · intro c hc
        cases List.mem_cons.mp hc with
        | inl heq => exact heq ▸ ha
        | inr hmem => exact List.mem_takeWhile_imp hmem

theorem IsSplit.eq {split : (α → Bool) → List α → List (List α)} (h : IsSplit split) :
    split = fun p => splitRuns p false := by
  funext p l
  induction hlength : l.length using Nat.strongRecOn generalizing l with
  | ind n ih =>
      cases parts_cases p l with
      | inl hpart => rw [h.part p l hpart, isSplit_splitRuns.part p l hpart]
      | inr hparts =>
          obtain ⟨part, sep, rest, rfl, hpart, hne, hsep, hrest⟩ := hparts
          rw [h.run p part sep rest hpart hne hsep hrest,
            isSplit_splitRuns.run p part sep rest hpart hne hsep hrest]
          have hshorter := List.length_pos_of_ne_nil hne
          rw [List.length_append, List.length_append] at hlength
          rw [ih rest.length (by omega) rest rfl]

theorem head_splitRuns (p : α → Bool) (l : List α) :
    (splitRuns p false l).head? = some (l.takeWhile fun a => !p a) := by
  induction l with
  | nil => rfl
  | cons a l ih =>
      cases ha : p a with
      | true => simp [splitRuns, ha]
      | false => simp [splitRuns, ha, ih]

theorem mem_of_mem_splitRuns {inRun : Bool} {l part : List α} (h : part ∈ splitRuns p inRun l)
    {a : α} (ha : a ∈ part) : a ∈ l := by
  induction l generalizing inRun part with
  | nil =>
      rw [splitRuns, List.mem_singleton] at h
      rw [h] at ha
      exact ha
  | cons c l ih =>
      rw [splitRuns] at h
      split at h
      · split at h
        · exact List.mem_cons_of_mem c (ih h ha)
        · cases List.mem_cons.mp h with
          | inl hempty =>
              rw [hempty] at ha
              cases ha
          | inr hbehind => exact List.mem_cons_of_mem c (ih hbehind ha)
      · cases hparts : splitRuns p false l with
        | nil =>
            rw [hparts] at h
            cases h
        | cons first parts =>
            rw [hparts, List.modifyHead_cons] at h
            cases List.mem_cons.mp h with
            | inl hfirst =>
                rw [hfirst] at ha
                cases List.mem_cons.mp ha with
                | inl heq => exact heq ▸ List.mem_cons_self
                | inr hmem =>
                    exact List.mem_cons_of_mem c (ih (hparts ▸ List.mem_cons_self) hmem)
            | inr hbehind =>
                exact List.mem_cons_of_mem c (ih (hparts ▸ List.mem_cons_of_mem _ hbehind) ha)

end Userworks
