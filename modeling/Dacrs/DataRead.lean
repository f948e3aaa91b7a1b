import Dacrs.DataList

/-!
# One answer of a script's list

`GetScriptData` with an index, asked a single question.  `Reads` says of which questions the answer
is found without a comparison that goes beyond the end of a key.  With as many rounds as there are
keys and one more, a question that reads is answered with the least key the stack shows behind it,
and any other ends in such a comparison (`getScriptData_answers`).
-/

open Codec (Bytes)
open Cursor

namespace Dacrs

open CScriptDBViewCache (scriptDataKey)

namespace ScriptStack

/-! ## One level -/

section
variable {db : CScriptDB} {c : ScriptCache} {id : Bytes} {q : Option Bytes}

/-- The only thing that goes wrong in a search. -/
theorem ownData_error {vchKey : Bytes} {l : List Bytes} {what : Stuck} (h : ownData c vchKey l = .error what) :
    what = .outside := by
  induction l with
  | nil => cases h
  | cons key l ih =>
    rw [ownData] at h
    split at h
    · exact (Except.error.inj h).symm
    · split at h
      · split at h
        · exact ih h
        · cases h
      · cases h

theorem dataCursor_error {cDSKeySet : Bytes} {l : List Bytes} {what : Stuck}
    (h : dataCursor cDSKeySet 0 l = .error what) : what = .outside := by
  cases l with
  | nil => cases h
  | cons key l =>
    rw [dataCursor] at h
    split at h
    · exact (Except.error.inj h).symm
    · split at h
      · cases h
      · cases h

/-- A search that does not fit reads beyond the end of a key. -/
theorem ownData_outside (hid : id.length = 6) (h : ¬ OwnFits c id q) :
    ownData c (dataKeyPrefix id) (upperBound (dataKeyPrefix id ++ q.getD []) (keysOf c)) = .error .outside := by
  have htail := upper_tail c id (q.getD [])
  cases hown : ownData c (dataKeyPrefix id) (upperBound (dataKeyPrefix id ++ q.getD []) (keysOf c)) with
  | error what => rw [ownData_error hown]
  | ok r =>
    refine absurd ?_ h
    cases r with
    | none => exact .inr (htail.fits_iff.mp (fits_of_ownData hid htail.ascending hown))
    | some e =>
      obtain ⟨hmem, hbegins, hvalue, hne⟩ := ownData_prefix hid hown
      have hkey := scriptDataKey_of_prefix hid hbegins
      have hlt := ((mem_dropWhile_le (keysOf_ascending c)).mp hmem).2
      rw [dataKeyPrefix_append, ← hkey, scriptDataKey_lt] at hlt
      have hnil : e.1.drop 11 ≠ [] := nil_lt_iff.mp (lt_of_le_of_lt (List.nil_le _) hlt)
      refine .inl ⟨e.1.drop 11, ?_, ?_⟩
      · cases q with
        | none => trivial
        | some k => exact hlt
      · rw [ownDataAt_eq c id hnil, hkey, if_pos (isData_iff.mpr ⟨hbegins, hvalue ▸ hne⟩)]
        simp

/-- So does a cursor of the database. -/
theorem dbGetScriptData_outside (hid : id.length = 6) (hq : q ≠ some []) (h : ¬ DbFits db id q) :
    dbGetScriptData db id q = .error .outside := by
  obtain ⟨cDSKeySet, hset, heq⟩ := @dbGetScriptData_eq db id hid q hq
  have htail := dbTail_tail db id q
  rw [heq]
  cases hcursor : dataCursor cDSKeySet 0 (dbTail db id q) with
  | error what =>
    rw [dataCursor_error hcursor]
    rfl
  | ok found =>
    refine absurd ?_ h
    cases found with
    | none => exact .inr (htail.fits_iff.mp (fits_of_dataCursor hid hset htail.ascending hcursor))
    | some key =>
      obtain ⟨hmem, htake⟩ := dataCursor_found hcursor
      have hkey := scriptDataKey_of_prefix hid ((take_eq_dataKeyPrefix hid).mp (htake.trans hset))
      obtain ⟨hstored, -, hafter⟩ := mem_dbTail.mp hmem
      refine .inl ⟨key.drop 11, ?_, ?_⟩
      · cases q with
        | none => trivial
        | some k =>
          have hlt := hafter k rfl
          rwa [← hkey, scriptDataKey_lt] at hlt
      · unfold dbDataAt
        rw [hkey]
        exact mem_dbKeys.mp hstored

end

/-! ## A stack -/

section
variable {db : CScriptDB} {c : ScriptCache} {base caches : List ScriptCache} {id : Bytes} {q : Option Bytes}
  {b : Bytes → Option Bytes}

/-- With enough rounds the question ends in a comparison that goes beyond the end of a key. -/
def Outside (db : CScriptDB) (id : Bytes) (caches : List ScriptCache) (q : Option Bytes) : Prop :=
  ∀ n, rounds db caches ≤ n → getScriptData db id n caches q = .error .outside

theorem baseLoop_error {vchKey : Bytes} {own : Option (Bytes × Bytes)} {i : ℕ} {what : Stuck}
    {ask : Option Bytes → Except Stuck (Option (Bytes × Bytes))} (h : ask q = .error what) :
    baseLoop c vchKey own ask (i + 1) q = .error what := by
  rw [baseLoop.eq_def]
  dsimp only
  rw [h]

/-- A key of the base that is passed over is not before the base's first answer, which is passed over
too. -/
theorem Passed.first {k : Bytes} {rb : Option (Bytes × Bytes)} (h : Passed c id b q k) (hrb : Least b (After q) rb) :
    ∃ j v, rb = some (j, v) ∧ j ≤ k ∧ c.lookup (scriptDataKey id j) ≠ none ∧ ∀ i, After q i → i ≤ j → ownDataAt c id i = none := by
  cases rb with
  | none => exact absurd (hrb k h.after) h.shown
  | some e =>
    obtain ⟨j, v⟩ := e
    have hle : j ≤ k := by
      by_contra hlt
      exact h.shown (hrb.2.2 k h.after (not_le.mp hlt))
    refine ⟨j, v, rfl, hle, fun hnone => ?_, fun i hi hij => h.own hi (le_trans hij hle)⟩
    have hhidden := h.hidden j hrb.1 hle
    rw [merged, if_pos hnone, hrb.2.1] at hhidden
    cases hhidden

/-- The loop of a cache comes to the question at which its base fails. -/
theorem baseLoop_outside {r : Option (Bytes × Bytes)} {B : Finset Bytes} (hB : ∀ k, b k ≠ none → k ∈ B)
    (hans : ∀ q', q' = q ∨ (∃ k, q' = some k ∧ Passed c id b q k) → Returns db id base b q' ∨ Outside db id base q')
    (hbad : Outside db id base q ∨ ∃ k, Passed c id b q k ∧ Outside db id base (some k))
    (hown : Least (ownDataAt c id) (After q) r) {n i : ℕ} (hn : rounds db base ≤ n)
    (hi : (B.filter (After q)).card < i) :
    baseLoop c (dataKeyPrefix id) (r.map fun e => (scriptDataKey id e.1, e.2)) (getScriptData db id n base) i q
      = .error .outside := by
  induction i generalizing q with
  | zero => exact absurd hi (Nat.not_lt_zero _)
  | succ i ih =>
    rcases hbad with hbad | ⟨k, hpassed, hbad⟩
    · exact baseLoop_error (hbad n hn)
    · rcases hans q (.inl rfl) with ⟨rb, hrb, hN⟩ | hout
      · obtain ⟨j, v, rfl, hle, hlookup, hownNone⟩ := hpassed.first hrb
        have hbefore : ∀ e, r = some e → j < e.1 := by
          rintro e rfl
          by_contra hlt
          cases hown.2.1.symm.trans (hownNone e.1 hown.1 (not_lt.mp hlt))
        have hfirst := passed_first hrb hown hbefore hlookup
        have hkeys : ∀ e, r.map (fun e => (scriptDataKey id e.1, e.2)) = some e → dataKeyPrefix id ++ j < e.1 := by
          intro e he
          obtain ⟨f, rfl, rfl⟩ := Option.map_eq_some_iff.mp he
          rw [dataKeyPrefix_append]
          exact scriptDataKey_lt.mpr (hbefore f rfl)
        rw [← dataKeyPrefix_append] at hlookup
        rw [baseLoop_again (hN n hn) hkeys hlookup]
        have hfewer := card_after_lt hfirst.after (hB j hfirst.shown)
        refine ih ?_ ?_ (least_behind hfirst.after hown hbefore) (by omega)
        · rintro _ (rfl | ⟨k', rfl, hk'⟩)
          · exact hans _ (.inr ⟨j, rfl, hfirst⟩)
          · exact hans _ (.inr ⟨k', rfl, hfirst.trans hk'⟩)
        · rcases lt_or_eq_of_le hle with hlt | rfl
          · exact .inr ⟨k, hpassed.behind hfirst.after hlt, hbad⟩
          · exact .inl hbad
      · exact baseLoop_error (hout n hn)

/-- A question that does not read ends beyond the end of a key. -/
theorem outside_of_not_reads (hid : id.length = 6) (h : ¬ Reads db id caches q) : Outside db id caches q := by
  induction caches generalizing q with
  | nil =>
    obtain ⟨hq, hfits⟩ := Classical.not_imp.mp h
    exact fun n _ => dbGetScriptData_outside hid hq hfits
  | cons c base ih =>
    intro n hn
    rw [getScriptData]
    by_cases hfits : OwnFits c id q
    · obtain ⟨B, hcard, hB⟩ := dataAt_finite db base hid
      obtain ⟨r, hown, hownEq⟩ := ownData_least hid hfits
      rw [hownEq]
      have hbase := le_trans (rounds_cons db c base) hn
      have hans : ∀ q', Returns db id base (shownAfter db base id q') q' ∨ Outside db id base q' := by
        intro q'
        by_cases hreads : Reads db id base q'
        · exact .inl (returns_of_reads hid hreads)
        · exact .inr (ih hreads)
      have hpart : ∀ k, shownAfter db base id q k ≠ none → k ∈ B := fun k hk => hB k (shownAfter_part hk)
      refine baseLoop_outside hpart ?_ ?_ hown hbase
        (lt_of_le_of_lt (Finset.card_filter_le _ _) (lt_of_lt_of_le hcard hbase))
      · rintro q' (rfl | ⟨k, rfl, hk⟩)
        · exact hans q'
        · refine (hans (some k)).imp_left fun hk' => hk'.congr fun j hj => ?_
          exact (shownAfter_next hk.after hk.shown j hj).symm
      · by_cases hreads : Reads db id base q
        · obtain ⟨k, hk⟩ := not_forall.mp fun hall => h ⟨hfits, hreads, hall⟩
          obtain ⟨hpassed, hno⟩ := Classical.not_imp.mp hk
          exact .inr ⟨k, hpassed, ih hno⟩
        · exact .inl (ih hreads)
    · rw [ownData_outside hid hfits]

/-- With a round for each key and one more, a question that reads is answered with the least key shown
behind it, and any other ends beyond the end of a key. -/
theorem getScriptData_answers (hid : id.length = 6) {n : ℕ} (hn : rounds db caches ≤ n) :
    (Reads db id caches q → ∃ r, Least (shownAfter db caches id q) (After q) r ∧
      getScriptData db id n caches q = .ok r) ∧
      (¬ Reads db id caches q → getScriptData db id n caches q = .error .outside) := by
  constructor
  · intro h
    obtain ⟨r, hr, hN⟩ := returns_of_reads hid h
    exact ⟨r, hr, hN n hn⟩
  · exact fun h => outside_of_not_reads hid h n hn

end

end ScriptStack

end Dacrs
