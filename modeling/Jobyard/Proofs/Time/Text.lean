import Jobyard.Proofs.Time.Calendar
import Jobyard.Time.Text

/-!
Points of time survive their texts: the lenient reader takes the written form of any point of time
back to that point, and the strict reader does so within the years that have four digits.
-/

namespace Jobyard

namespace Text

theorem toList_padded (width n : Nat) :
    (padded width n).toList =
      List.replicate (width - (Nat.toDigits 10 n).length) '0' ++ Nat.toDigits 10 n :=
  String.toList_ofList

theorem isDigit_of_mem_padded {width n : Nat} {c : Char} (h : c ∈ (padded width n).toList) :
    c.isDigit := by
  rw [toList_padded] at h
  rcases List.mem_append.mp h with hzero | hdigit
  · rw [List.eq_of_mem_replicate hzero]
    rfl
  · exact Nat.isDigit_of_mem_toDigits (by decide) (by decide) hdigit

theorem isBlank_of_isDigit {c : Char} (h : c.isDigit = true) : isBlank c = false := by
  have hrange : 48 ≤ c.toNat ∧ c.toNat ≤ 57 := by
    simpa [Char.isDigit, UInt32.le_iff_toNat_le] using h
  simp only [isBlank, Bool.or_eq_false_iff, Bool.and_eq_false_iff, decide_eq_false_iff_not,
    beq_eq_false_iff_ne]
  omega

theorem length_padded (width n : Nat) (hpos : 0 < width) (h : n < Nat.pow 10 width) :
    (padded width n).toList.length = width := by
  have hle := (Nat.length_toDigits_le_iff (by decide) hpos).mpr h
  rw [toList_padded, List.length_append, List.length_replicate]
  omega

theorem padded_ne_nil (width n : Nat) : (padded width n).toList ≠ [] := by
  rw [toList_padded]
  exact List.append_ne_nil_of_right_ne_nil _ Nat.toDigits_ne_nil

theorem padded_eq_cons (width n : Nat) :
    ∃ first others, (padded width n).toList = first :: others ∧ first.isDigit = true := by
  cases hdigits : (padded width n).toList with
  | nil => exact absurd hdigits (padded_ne_nil width n)
  | cons first others =>
      exact ⟨first, others, rfl, isDigit_of_mem_padded (hdigits ▸ List.mem_cons_self)⟩

theorem digits?_padded (width n : Nat) : digits? (padded width n).toList = some n := by
  have hall : (padded width n).toList.all Char.isDigit = true :=
    List.all_eq_true.mpr fun c hc => isDigit_of_mem_padded hc
  have hvalue :
      (padded width n).toList.foldl (fun n c => 10 * n + (c.toNat - '0'.toNat)) 0 = n := by
    rw [← Nat.ofDigitChars_eq_foldl, toList_padded, Nat.ofDigitChars_append,
      Nat.ofDigitChars_replicate_zero, Nat.mul_zero, Nat.ofDigitChars_ten_toDigits]
  cases hdigits : (padded width n).toList with
  | nil => exact absurd hdigits (padded_ne_nil width n)
  | cons first rest =>
      rw [← hdigits]
      rw [hdigits] at hall hvalue
      rw [hdigits, digits?, if_pos hall, hvalue]
      exact List.cons_ne_nil first rest

end Text

namespace TimeText

open Text

theorem bind_of_read {α β : Type} {reader : Reader α} {f : α → Reader β} {cs rest : List Char}
    {value : α} (h : reader cs = some (value, rest)) : (reader >>= f) cs = f value rest := by
  change (reader cs).bind _ = _
  rw [h]
  rfl

theorem number_padded {least most width n : Nat} {c : Char} {rest : List Char}
    (hc : c.isDigit = false) (hleast : least ≤ (padded width n).toList.length)
    (hmost : (padded width n).toList.length ≤ most) :
    number least most ((padded width n).toList ++ c :: rest) = some (n, c :: rest) := by
  have hdigits : (((padded width n).toList ++ c :: rest).take most).takeWhile Char.isDigit =
      (padded width n).toList := by
    rw [List.take_append, List.take_of_length_le hmost,
      List.takeWhile_append_of_pos fun d hd => isDigit_of_mem_padded hd]
    cases most - (padded width n).toList.length with
    | zero => simp
    | succ more => simp [hc]
  unfold number
  simp only [hdigits, if_neg (Nat.not_lt.mpr hleast), digits?_padded, Option.map_some,
    List.drop_left]

theorem number_padded_two {n : Nat} {c : Char} {rest : List Char} (hn : n < 100)
    (hc : c.isDigit = false) :
    number 1 2 ((padded 2 n).toList ++ c :: rest) = some (n, c :: rest) := by
  have hlength := length_padded 2 n (by decide) hn
  exact number_padded hc (by omega) (by omega)

theorem number_padded_exact {width n : Nat} {c : Char} {rest : List Char} (hpos : 0 < width)
    (hn : n < Nat.pow 10 width) (hc : c.isDigit = false) :
    number width width ((padded width n).toList ++ c :: rest) = some (n, c :: rest) := by
  have hlength := length_padded width n hpos hn
  exact number_padded hc (Nat.le_of_eq hlength.symm) (Nat.le_of_eq hlength)

theorem char_cons (c : Char) (rest : List Char) : char c (c :: rest) = some ((), rest) := if_pos rfl

theorem dropBlanks_padded (width n : Nat) (rest : List Char) :
    dropBlanks ((padded width n).toList ++ rest) = (padded width n).toList ++ rest := by
  obtain ⟨first, others, hdigits, hdigit⟩ := padded_eq_cons width n
  rw [hdigits, List.cons_append, dropBlanks_cons, isBlank_of_isDigit hdigit,
    if_neg Bool.false_ne_true]

theorem shortNumber_padded {n : Nat} {c : Char} {rest : List Char} (hn : n < 100)
    (hc : c.isDigit = false) :
    shortNumber ((padded 2 n).toList ++ c :: rest) = some (n, c :: rest) := by
  have hblanks : blanks ((padded 2 n).toList ++ c :: rest) =
      some ((), (padded 2 n).toList ++ c :: rest) :=
    congrArg (fun cs => some ((), cs)) (dropBlanks_padded 2 n (c :: rest))
  unfold shortNumber
  rw [bind_of_read hblanks]
  exact number_padded_two hn hc

theorem spaced_cons {c : Char} {rest : List Char} (hc : isBlank c = false) :
    spaced c (c :: rest) = some ((), rest) := by
  have hblanks : blanks (c :: rest) = some ((), c :: rest) := by
    change some ((), dropBlanks (c :: rest)) = _
    rw [dropBlanks_cons, hc, if_neg Bool.false_ne_true]
  unfold spaced
  rw [bind_of_read hblanks]
  exact if_pos rfl

theorem lenientYear_minus (cs : List Char) :
    lenientYear ('-' :: cs) = (number 1 cs.length cs).map fun (n, rest) => (-(n : Int), rest) := rfl

theorem lenientYear_plus (cs : List Char) :
    lenientYear ('+' :: cs) = (number 1 cs.length cs).map fun (n, rest) => ((n : Int), rest) := rfl

theorem lenientYear_digit {first : Char} {cs : List Char} (h : first.isDigit = true) :
    lenientYear (first :: cs) =
      (number 1 4 (first :: cs)).map fun (n, rest) => ((n : Int), rest) := by
  unfold lenientYear
  rw [dropBlanks_cons, isBlank_of_isDigit h, if_neg Bool.false_ne_true]
  simp only
  split
  · rename_i hminus
    cases hminus
    cases h
  · rename_i hplus
    cases hplus
    cases h
  · rfl

theorem lenientYear_year (n : Int) (rest : List Char) :
    lenientYear ((year n).toList ++ '-' :: rest) = some (n, '-' :: rest) := by
  have hsigned : number 1 ((padded 4 n.natAbs).toList ++ '-' :: rest).length
      ((padded 4 n.natAbs).toList ++ '-' :: rest) = some (n.natAbs, '-' :: rest) := by
    have hpos := List.length_pos_iff.mpr (padded_ne_nil 4 n.natAbs)
    apply number_padded rfl hpos
    rw [List.length_append]
    omega
  unfold year
  split
  · rename_i hplain
    have hdigits : n.toNat < 10000 := by omega
    have hlength := length_padded 4 n.toNat (by decide) hdigits
    have hread : number 1 4 ((padded 4 n.toNat).toList ++ '-' :: rest) =
        some (n.toNat, '-' :: rest) := number_padded rfl (by omega) (by omega)
    obtain ⟨first, others, hdigits, hdigit⟩ := padded_eq_cons 4 n.toNat
    rw [hdigits, List.cons_append] at hread ⊢
    have hvalue : (n.toNat : Int) = n := Int.toNat_of_nonneg hplain.1
    rw [lenientYear_digit hdigit, hread, Option.map_some]
    exact congrArg (fun value => some (value, '-' :: rest)) hvalue
  · split
    · rename_i hnegative
      have htext : ("-" ++ padded 4 n.natAbs).toList ++ '-' :: rest =
          '-' :: ((padded 4 n.natAbs).toList ++ '-' :: rest) := by simp
      have hvalue : -(n.natAbs : Int) = n := by omega
      rw [htext, lenientYear_minus, hsigned, Option.map_some]
      exact congrArg (fun value => some (value, '-' :: rest)) hvalue
    · rename_i hplain hnegative
      have htext : ("+" ++ padded 4 n.natAbs).toList ++ '-' :: rest =
          '+' :: ((padded 4 n.natAbs).toList ++ '-' :: rest) := by simp
      have hvalue : (n.natAbs : Int) = n := by omega
      rw [htext, lenientYear_plus, hsigned, Option.map_some]
      exact congrArg (fun value => some (value, '-' :: rest)) hvalue

theorem decimals_padded {width n : Nat} {c : Char} {rest : List Char} (hpos : 0 < width)
    (hwidth : width ≤ 9) (hn : n < Nat.pow 10 width) (hc : c.isDigit = false) :
    decimals (("." ++ padded width n).toList ++ c :: rest) =
      some (n * Nat.pow 10 (9 - width), c :: rest) := by
  have hlength := length_padded _ _ hpos hn
  have htext : ("." ++ padded width n).toList ++ c :: rest =
      '.' :: ((padded width n).toList ++ c :: rest) := by simp
  have htake : ((padded width n).toList ++ c :: rest).takeWhile Char.isDigit =
      (padded width n).toList := by
    rw [List.takeWhile_append_of_pos fun d hd => isDigit_of_mem_padded hd]
    simp [hc]
  have hdrop : ((padded width n).toList ++ c :: rest).dropWhile Char.isDigit = c :: rest := by
    rw [List.dropWhile_append_of_pos fun d hd => isDigit_of_mem_padded hd]
    simp [hc]
  rw [htext]
  unfold decimals
  simp only [htake, hdrop]
  rw [List.take_of_length_le (by omega), digits?_padded, hlength]
  rfl

theorem decimals_fraction {nano : Nat} (rest : List Char) (hnano : nano < nanosPerSecond) :
    decimals ((fraction nano).toList ++ 'Z' :: rest) = some (nano, 'Z' :: rest) := by
  have hbound : nano < 1000000000 := hnano
  unfold fraction
  split
  · rename_i hzero
    rw [hzero]
    rfl
  · split
    · rename_i hmillis
      have hdigits : nano / 1000000 < 1000 := by omega
      have hvalue : nano / 1000000 * 1000000 = nano := by omega
      rw [decimals_padded (by decide) (by decide) hdigits rfl]
      exact congrArg (fun value => some (value, 'Z' :: rest)) hvalue
    · split
      · rename_i hmicros
        have hdigits : nano / 1000 < 1000000 := by omega
        have hvalue : nano / 1000 * 1000 = nano := by omega
        rw [decimals_padded (by decide) (by decide) hdigits rfl]
        exact congrArg (fun value => some (value, 'Z' :: rest)) hvalue
      · rw [decimals_padded (by decide) (by decide) hbound rfl]
        exact congrArg (fun value => some (value, 'Z' :: rest)) (Nat.mul_one nano)

theorem fraction_eq_cons (nano : Nat) (rest : List Char) :
    ∃ first others, (fraction nano).toList ++ 'Z' :: rest = first :: others ∧
      first.isDigit = false := by
  unfold fraction
  split
  · exact ⟨'Z', rest, rfl, rfl⟩
  · split
    · exact ⟨'.', _, by rw [String.toList_append]; rfl, rfl⟩
    · split
      · exact ⟨'.', _, by rw [String.toList_append]; rfl, rfl⟩
      · exact ⟨'.', _, by rw [String.toList_append]; rfl, rfl⟩

end TimeText

namespace Instant

open Text TimeText

def fields (t : Instant) : TimeText.Fields where
  date := t.date
  hour := t.hour
  minute := t.second / 60 % 60
  second := t.second % 60 + if t.isLeap then 1 else 0
  nano := t.nano % nanosPerSecond
  offset := 0

theorem toList_text (t : Instant) :
    t.text.toList = (year t.date.year).toList ++ '-' :: ((padded 2 t.date.month).toList ++
      '-' :: ((padded 2 t.date.day).toList ++ 'T' :: ((padded 2 t.hour).toList ++
      ':' :: ((padded 2 t.fields.minute).toList ++ ':' :: ((padded 2 t.fields.second).toList ++
      ((fraction t.fields.nano).toList ++ ['Z'])))))) := by
  simp [text, TimeText.date, fields]

theorem fields_bounds (t : Instant) :
    t.date.month < 100 ∧ t.date.day < 100 ∧ t.hour < 100 ∧ t.fields.minute < 100 ∧
      t.fields.second < 100 ∧ t.fields.nano < nanosPerSecond := by
  obtain ⟨hvalid, _⟩ := Date.ofDay_spec t.day
  obtain ⟨_, _, hsecond, _, _⟩ := t.valid
  have hbound : t.second < 86400 := hsecond
  refine ⟨Nat.lt_of_le_of_lt hvalid.2.1 (by decide), Nat.lt_of_le_of_lt hvalid.day_le (by decide),
    ?_, ?_, ?_, Nat.mod_lt _ (by decide)⟩
  · unfold hour
    omega
  · simp only [fields]
    omega
  · simp only [fields]
    split <;> omega

theorem lenientFields_text (t : Instant) :
    lenientFields t.text.toList = some (t.fields, []) := by
  obtain ⟨hmonth, hday, hhour, hminute, hsecond, hnano⟩ := t.fields_bounds
  obtain ⟨first, others, hfraction, hfirst⟩ := fraction_eq_cons t.fields.nano []
  have hdecimals := decimals_fraction [] hnano
  have hdivider (rest : List Char) : divider ('T' :: rest) = some ((), rest) := rfl
  rw [toList_text]
  unfold lenientFields
  rw [bind_of_read (lenientYear_year _ _), bind_of_read (spaced_cons rfl),
    bind_of_read (shortNumber_padded hmonth rfl), bind_of_read (spaced_cons rfl),
    bind_of_read (shortNumber_padded hday rfl),
    bind_of_read (hdivider _),
    bind_of_read (shortNumber_padded hhour rfl), bind_of_read (spaced_cons rfl),
    bind_of_read (shortNumber_padded hminute rfl), bind_of_read (spaced_cons rfl), hfraction,
    bind_of_read (shortNumber_padded hsecond hfirst), ← hfraction, bind_of_read hdecimals]
  rfl

theorem strictFields_text {t : Instant} (hfirst : 0 ≤ t.date.year) (hlast : t.date.year ≤ 9999) :
    strictFields t.text.toList = some (t.fields, []) := by
  obtain ⟨hmonth, hday, hhour, hminute, hsecond, hnano⟩ := t.fields_bounds
  obtain ⟨first, others, hfraction, hnoDigit⟩ := fraction_eq_cons t.fields.nano []
  have hdecimals := decimals_fraction [] hnano
  have hdivider (rest : List Char) : divider ('T' :: rest) = some ((), rest) := rfl
  have hoffset : offset (char ':') ['Z'] = some (0, []) := rfl
  have hyear : t.date.year.toNat < 10000 := by omega
  have hwritten : year t.date.year = padded 4 t.date.year.toNat := if_pos ⟨hfirst, hlast⟩
  have hvalue : ((t.date.year.toNat : Nat) : Int) = t.date.year := Int.toNat_of_nonneg hfirst
  rw [toList_text, hwritten]
  unfold strictFields
  rw [bind_of_read (number_padded_exact (by decide) hyear rfl), bind_of_read (char_cons _ _),
    bind_of_read (number_padded_exact (by decide) hmonth rfl), bind_of_read (char_cons _ _),
    bind_of_read (number_padded_exact (by decide) hday rfl), bind_of_read (hdivider _),
    bind_of_read (number_padded_exact (by decide) hhour rfl), bind_of_read (char_cons _ _),
    bind_of_read (number_padded_exact (by decide) hminute rfl), bind_of_read (char_cons _ _),
    hfraction, bind_of_read (number_padded_exact (by decide) hsecond hnoDigit), ← hfraction,
    bind_of_read hdecimals, bind_of_read hoffset, hvalue]
  rfl

theorem ofParts?_self (t : Instant) : ofParts? t.day t.second t.nano = some t := dif_pos t.valid

theorem instant?_fields (t : Instant) : t.fields.instant? = some t := by
  obtain ⟨_, _, hday, hlimit, hleap⟩ := t.valid
  have hsecond : t.second < 86400 := hday
  have hnano : t.nano < 2000000000 := hlimit
  have hinside : t.fields.hour < 24 ∧ t.fields.minute < 60 ∧ t.fields.second ≤ 60 ∧
      -offsetLimit < (0 : Int) ∧ (0 : Int) < offsetLimit := by
    refine ⟨?_, ?_, ?_, by decide, by decide⟩
    · simp only [fields, hour]
      omega
    · simp only [fields]
      omega
    · simp only [fields]
      split <;> omega
  have hlast : (if t.fields.second = 60 then 59 else t.fields.second) = t.second % 60 ∧
      t.nano % 1000000000 + (if t.fields.second = 60 then 1000000000 else 0) = t.nano := by
    by_cases hisLeap : t.isLeap
    · have hge : 1000000000 ≤ t.nano := of_decide_eq_true hisLeap
      have hlastSecond : t.second % 60 = 59 := hleap hge
      have hsixty : t.fields.second = 60 := by simp [fields, hisLeap, hlastSecond]
      rw [if_pos hsixty, if_pos hsixty]
      omega
    · have hlt : t.nano < 1000000000 := Nat.not_le.mp fun hge => hisLeap (decide_eq_true hge)
      have hplain : t.fields.second = t.second % 60 := by simp [fields, hisLeap]
      have hne : t.fields.second ≠ 60 := by omega
      rw [if_neg hne, if_neg hne]
      omega
  have hwhole : t.fields.hour * 3600 + t.fields.minute * 60 + t.second % 60 = t.second := by
    simp only [hour, fields]
    omega
  unfold Fields.instant?
  rw [show t.fields.date.toDay? = some t.day from Date.toDay?_ofDay t.day]
  change (if t.fields.hour < 24 ∧ t.fields.minute < 60 ∧ t.fields.second ≤ 60 ∧
    -offsetLimit < (0 : Int) ∧ (0 : Int) < offsetLimit then _ else _) = _
  rw [if_pos hinside]
  change (ofParts? t.day (t.fields.hour * 3600 + t.fields.minute * 60 +
    (if t.fields.second = 60 then 59 else t.fields.second))
    (t.nano % 1000000000 + (if t.fields.second = 60 then 1000000000 else 0))).bind _ = _
  rw [hlast.1, hlast.2, hwhole, ofParts?_self]
  change ofParts? (t.day + ((t.second : Int) - 0) / 86400) (((t.second : Int) - 0) % 86400).toNat
    (t.nano % 1000000000 + (if t.fields.second = 60 then 1000000000 else 0)) = _
  rw [hlast.2, show t.day + ((t.second : Int) - 0) / 86400 = t.day by omega,
    show (((t.second : Int) - 0) % 86400).toNat = t.second by omega, ofParts?_self]

theorem parseLenient?_text (t : Instant) : parseLenient? t.text = some t := by
  unfold parseLenient? whole?
  rw [lenientFields_text]
  exact instant?_fields t

theorem parse?_text {t : Instant} (hfirst : 0 ≤ t.date.year) (hlast : t.date.year ≤ 9999) :
    parse? t.text = some t := by
  unfold parse? whole?
  rw [strictFields_text hfirst hlast]
  exact instant?_fields t

end Instant

end Jobyard
