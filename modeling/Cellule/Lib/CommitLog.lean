import Mathlib.Data.List.DropRight

/-!
# A log of writes with commit marks

A log is a list of writes, each with its key and a mark; a mark other than zero commits what was
written so far. What counts is the part up to the last commit (`committed`), its mark (`mark`), and
where a key was written last (`latest`). A log that is read in two parts gives these back
(`committed_append`, `mark_append`, `latest_append`).
-/

namespace CommitLog

open List Option

/-- The writes up to the last commit. -/
def committed (log : List (Nat × Nat)) : List (Nat × Nat) :=
  log.rdropWhile fun write => write.2 == 0

/-- The mark of the last commit, or zero. -/
def mark (log : List (Nat × Nat)) : Nat := ((committed log).getLast?.map (·.2)).getD 0

/-- Where a key was written last, counting from a first place. -/
def latest : List (Nat × Nat) → Nat → Nat → Option Nat
  | [], _, _ => none
  | write :: log, place, key =>
    (latest log (place + 1) key).or (if write.1 = key then some place else none)

@[simp] theorem committed_nil : committed [] = [] := rfl

@[simp] theorem mark_nil : mark [] = 0 := rfl

theorem committed_isPrefix (log : List (Nat × Nat)) : committed log <+: log :=
  rdropWhile_prefix _ log

@[simp] theorem committed_committed (log : List (Nat × Nat)) :
    committed (committed log) = committed log := rdropWhile_idempotent _ _

theorem committed_append (log more : List (Nat × Nat)) :
    committed (log ++ more) = if committed more = [] then committed log
      else log ++ committed more := by
  induction more using List.reverseRecOn with
  | nil => simp
  | append_singleton more write ih =>
    unfold committed at ih ⊢
    rw [← append_assoc, rdropWhile_concat, rdropWhile_concat]
    split
    · exact ih
    · rw [if_neg (by simp), append_assoc]

theorem mark_append (log more : List (Nat × Nat)) :
    mark (log ++ more) = if committed more = [] then mark log else mark more := by
  unfold mark
  rw [committed_append]
  split
  · rfl
  · next h => rw [getLast?_append_of_ne_nil _ h]

theorem mark_committed (log : List (Nat × Nat)) : mark (committed log) = mark log := by
  rw [mark, committed_committed, mark]

variable {log : List (Nat × Nat)} {place key : Nat}

/-- The last commit has a mark. -/
theorem mark_ne_zero (h : committed log ≠ []) : mark log ≠ 0 := by
  have hlast : ¬(((committed log).getLast h).2 == 0) = true := rdropWhile_last_not _ log h
  rw [mark, getLast?_eq_some_getLast h]
  simpa using hlast

theorem latest_append (log more : List (Nat × Nat)) (place key : Nat) :
    latest (log ++ more) place key
      = (latest more (place + log.length) key).or (latest log place key) := by
  induction log generalizing place with
  | nil => simp [latest]
  | cons write log ih =>
    rw [cons_append, latest, latest, ih, Option.or_assoc, length_cons, Nat.add_assoc,
      Nat.add_comm 1]

theorem latest_isSome : (latest log place key).isSome = true ↔ key ∈ log.map (·.1) := by
  induction log generalizing place with
  | nil => simp [latest]
  | cons write log ih =>
    rw [latest, isSome_or, Bool.or_eq_true, ih, map_cons, mem_cons]
    by_cases h : write.1 = key
    · simp [h]
    · simp [h, Ne.symm h]

theorem latest_eq_none : latest log place key = none ↔ key ∉ log.map (·.1) := by
  rw [← latest_isSome, Bool.not_eq_true, isSome_eq_false_iff, isNone_iff_eq_none]

/-- A key was last written at one of the places of the log, and nowhere after. -/
theorem latest_eq_some (h : latest log place key = some found) :
    ∃ before after mark, log = before ++ (key, mark) :: after ∧ found = place + before.length ∧
      key ∉ after.map (·.1) := by
  induction log generalizing place with
  | nil => cases h
  | cons write log ih =>
    rw [latest, or_eq_some_iff] at h
    rcases h with h | ⟨hnone, h⟩
    · obtain ⟨before, after, mark, rfl, rfl, hnot⟩ := ih h
      exact ⟨write :: before, after, mark, rfl, by rw [length_cons]; omega, hnot⟩
    · split at h
      · next hkey =>
        cases h
        exact ⟨[], log, write.2, by rw [← hkey]; rfl, rfl, latest_eq_none.1 hnone⟩
      · cases h

/-- Where a key was last written, by places: there, and at no later place. -/
theorem latest_eq_some_iff :
    latest log 0 key = some i ↔
      log[i]?.map (·.1) = some key ∧ ∀ j, i < j → log[j]?.map (·.1) ≠ some key := by
  constructor
  · intro h
    obtain ⟨before, after, mark, rfl, rfl, hnot⟩ := latest_eq_some h
    rw [Nat.zero_add]
    refine ⟨by simp, fun j hj hkey => hnot ?_⟩
    rw [getElem?_append_right (by omega), show j - before.length = j - before.length - 1 + 1
      by omega, getElem?_cons_succ] at hkey
    obtain ⟨write, hwrite, rfl⟩ := map_eq_some_iff.1 hkey
    exact mem_map_of_mem (mem_of_getElem? hwrite)
  · rintro ⟨hkey, hlast⟩
    obtain ⟨write, hwrite, rfl⟩ := map_eq_some_iff.1 hkey
    obtain ⟨found, hfound⟩ := isSome_iff_exists.1 (latest_isSome.2
      (mem_map_of_mem (mem_of_getElem? hwrite)) : (latest log 0 write.1).isSome = true)
    obtain ⟨before, after, mark, rfl, rfl, hnot⟩ := latest_eq_some hfound
    rw [hfound, Nat.zero_add]
    rcases Nat.lt_trichotomy before.length i with hlt | heq | hgt
    · rw [getElem?_append_right (by omega), show i - before.length = i - before.length - 1 + 1
        by omega, getElem?_cons_succ] at hwrite
      exact absurd (mem_map_of_mem (mem_of_getElem? hwrite)) hnot
    · rw [heq]
    · exact absurd (by simp) (hlast before.length hgt)

/-- The writes up to the last commit, by places. -/
theorem committed_eq_take {write : Nat × Nat} (hc : log[c]? = some write)
    (hmark : write.2 ≠ 0) (hlast : ∀ j other, c < j → log[j]? = some other → other.2 = 0) :
    committed log = log.take (c + 1) ∧ mark log = write.2 := by
  have hafter : committed (log.drop (c + 1)) = [] := by
    refine rdropWhile_eq_nil_iff.2 fun other hother => ?_
    obtain ⟨j, hj⟩ := mem_iff_getElem?.1 hother
    rw [getElem?_drop] at hj
    simpa using hlast _ other (by omega) hj
  have htake : log.take (c + 1) = log.take c ++ [write] := by
    rw [take_add_one, hc]
    rfl
  have hbefore : committed (log.take (c + 1)) = log.take (c + 1) := by
    rw [htake]
    unfold committed
    rw [rdropWhile_concat, if_neg (by simpa using hmark)]
  have hcommitted : committed log = log.take (c + 1) := by
    rw [← take_append_drop (c + 1) log, committed_append, if_pos hafter, hbefore, take_append_drop]
  refine ⟨hcommitted, ?_⟩
  rw [mark, hcommitted, htake]
  simp

/-- A log without a mark commits nothing. -/
theorem committed_eq_nil (h : ∀ write ∈ log, write.2 = 0) : committed log = [] :=
  rdropWhile_eq_nil_iff.2 fun write hwrite => by simpa using h write hwrite

theorem le_of_latest (h : latest log place key = some found) : place ≤ found := by
  obtain ⟨before, after, mark, -, rfl, -⟩ := latest_eq_some h
  omega

/-- A log taken up behind a part of what is committed: nothing is committed after that part, which
is then all that is committed, or the last commit is after it. -/
theorem committed_resumed (hdone : done <+: more) (h : committed (log ++ done) = log ++ done) :
    (committed more = [] ∧ done = [] ∧ committed (log ++ more) = log ∧
      mark (log ++ more) = mark (log ++ done)) ∨
    (committed more ≠ [] ∧ committed (log ++ more) = log ++ committed more ∧
      mark (log ++ more) = mark more) := by
  rw [committed_append log more, mark_append log more]
  by_cases hmore : committed more = []
  · have hnone : committed done = [] := by
      refine rdropWhile_eq_nil_iff.2 fun write hwrite => ?_
      exact rdropWhile_eq_nil_iff.1 hmore write (hdone.subset hwrite)
    rw [committed_append, if_pos hnone] at h
    have hlength := (committed_isPrefix log).length_le
    rw [h, length_append] at hlength
    obtain rfl : done = [] := length_eq_zero_iff.1 (by omega)
    rw [append_nil] at h ⊢
    rw [if_pos hmore, if_pos hmore]
    exact .inl ⟨hmore, rfl, h, rfl⟩
  · rw [if_neg hmore, if_neg hmore]
    exact .inr ⟨hmore, rfl, rfl⟩

end CommitLog
