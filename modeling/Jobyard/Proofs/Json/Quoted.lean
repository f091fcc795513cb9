import Jobyard.Json.Printer
import Jobyard.Json.Reader
import Mathlib.Tactic.SplitIfs

/-!
Strings survive their written forms: the reader takes each escaped character back to the character
that was escaped.
-/

namespace Jobyard.Json

theorem hexValue?_hexDigit (n : Nat) : hexValue? (hexDigit n) = some (n % 16) := by
  have hall : ∀ digit < 16, hexValue? (Nat.digitChar digit) = some digit := by decide
  exact hall (n % 16) (Nat.mod_lt n (by decide))

namespace Reading

variable {e : Option Embedding} {limit : Nat} {frames : List Frame} {stage : Quotation → Stage}
  {q : Quotation}

/-- A stage in which the characters of a string are taken. -/
def TakesText (e : Option Embedding) (limit : Nat) (frames : List Frame)
    (stage : Quotation → Stage) : Prop :=
  ∀ q c, (c = '"' && q.isOutside) = false →
    step? e limit ⟨frames, stage q⟩ c = (q.step? c).map fun q => ⟨frames, stage q⟩

theorem takesText_text : TakesText e limit frames .text := by
  intro q c hinside
  simp only [step?, hinside, Bool.false_eq_true, if_false]

theorem takesText_nameText (done : List (String × Json)) :
    TakesText e limit frames (.nameText done) := by
  intro q c hinside
  simp only [step?, hinside, Bool.false_eq_true, if_false]

theorem TakesText.begun (h : TakesText e limit frames stage) (hq : q.escape = .outside) :
    step? e limit ⟨frames, stage q⟩ '\\' = some ⟨frames, stage { q with escape := .begun }⟩ := by
  rw [h q '\\' rfl]
  simp [Quotation.step?, hq]

theorem TakesText.escape (h : TakesText e limit frames stage) (hq : q.escape = .outside)
    {letter c : Char} (hletter : letter ≠ 'u') (hplain : Quotation.plain? letter = some c) :
    ['\\', letter].foldlM (step? e limit) ⟨frames, stage q⟩ = some ⟨frames, stage (q.push c)⟩ := by
  have hstep : step? e limit ⟨frames, stage { q with escape := .begun }⟩ letter =
      some ⟨frames, stage (q.push c)⟩ := by
    rw [h _ letter (by simp [Quotation.isOutside])]
    simp [Quotation.step?, hletter, hplain, Quotation.push]
  rw [List.foldlM_cons, h.begun hq]
  simp only [Option.bind_eq_bind, Option.bind_some, List.foldlM_cons, hstep]
  rfl

theorem TakesText.digit (h : TakesText e limit frames stage) {text : List Char} {count value : Nat}
    {c : Char} {digit : Nat} (hdigit : hexValue? c = some digit) (hcount : count ≠ 3) :
    step? e limit ⟨frames, stage ⟨text, .digits none count value⟩⟩ c =
      some ⟨frames, stage ⟨text, .digits none (count + 1) (16 * value + digit)⟩⟩ := by
  rw [h _ c (by simp [Quotation.isOutside])]
  simp [Quotation.step?, hdigit, hcount]

theorem TakesText.lastDigit (h : TakesText e limit frames stage) (text : List Char) {value : Nat}
    {c : Char} {digit : Nat} (hdigit : hexValue? c = some digit)
    (hvalue : 16 * value + digit < 0x20) :
    step? e limit ⟨frames, stage ⟨text, .digits none 3 value⟩⟩ c =
      some ⟨frames, stage ⟨Char.ofNat (16 * value + digit) :: text, .outside⟩⟩ := by
  have hhigh : ¬ 0xD800 ≤ 16 * value + digit := by omega
  have hlow : ¬ 0xDC00 ≤ 16 * value + digit := by omega
  rw [h _ c (by simp [Quotation.isOutside])]
  simp [Quotation.step?, hdigit, Quotation.unit?, hhigh, hlow, Quotation.push]

theorem TakesText.unit (h : TakesText e limit frames stage) (hq : q.escape = .outside) {c : Char}
    (hc : c.toNat < 0x20) :
    ['\\', 'u', '0', '0', hexDigit (c.toNat / 16), hexDigit c.toNat].foldlM (step? e limit)
      ⟨frames, stage q⟩ = some ⟨frames, stage (q.push c)⟩ := by
  have hletter : step? e limit ⟨frames, stage { q with escape := .begun }⟩ 'u' =
      some ⟨frames, stage ⟨q.text, .digits none 0 0⟩⟩ := by
    rw [h _ 'u' rfl]
    rfl
  have hvalue : 16 * (16 * (16 * (16 * 0 + 0) + 0) + c.toNat / 16 % 16) + c.toNat % 16 =
      c.toNat := by omega
  have hlast := h.lastDigit q.text (hexValue?_hexDigit c.toNat) (hvalue ▸ hc)
  rw [hvalue, Char.ofNat_toNat] at hlast
  have hzero : hexValue? '0' = some 0 := rfl
  simp only [List.foldlM_cons, h.begun hq, hletter, Option.bind_eq_bind, Option.bind_some,
    h.digit hzero (by decide : 0 ≠ 3), h.digit hzero (by decide : 0 + 1 ≠ 3),
    h.digit (hexValue?_hexDigit (c.toNat / 16)) (by decide : 0 + 1 + 1 ≠ 3)]
  exact congrArg (Option.bind · _) hlast

theorem TakesText.plain (h : TakesText e limit frames stage) (hq : q.escape = .outside) {c : Char}
    (hquote : c ≠ '"') (hslash : c ≠ '\\') (hc : ¬ c.toNat < 0x20) :
    [c].foldlM (step? e limit) ⟨frames, stage q⟩ = some ⟨frames, stage (q.push c)⟩ := by
  have hstep : step? e limit ⟨frames, stage q⟩ c = some ⟨frames, stage (q.push c)⟩ := by
    rw [h q c (by simp [hquote])]
    simp [Quotation.step?, hq, hslash, hc]
  simp only [List.foldlM_cons, hstep]
  rfl

theorem TakesText.escaped (h : TakesText e limit frames stage) (hq : q.escape = .outside)
    (c : Char) : (Json.escaped c).foldlM (step? e limit) ⟨frames, stage q⟩ =
      some ⟨frames, stage (q.push c)⟩ := by
  unfold Json.escaped
  split_ifs with hquote hslash hline hreturn htab hback hfeed hcontrol
  · subst hquote
    exact h.escape hq (by decide) rfl
  · subst hslash
    exact h.escape hq (by decide) rfl
  · subst hline
    exact h.escape hq (by decide) rfl
  · subst hreturn
    exact h.escape hq (by decide) rfl
  · subst htab
    exact h.escape hq (by decide) rfl
  · subst hback
    exact h.escape hq (by decide) rfl
  · subst hfeed
    exact h.escape hq (by decide) rfl
  · exact h.unit hq hcontrol
  · exact h.plain hq hquote hslash hcontrol

theorem TakesText.flatMap (h : TakesText e limit frames stage) (hq : q.escape = .outside)
    (cs : List Char) : (cs.flatMap Json.escaped).foldlM (step? e limit) ⟨frames, stage q⟩ =
      some ⟨frames, stage ⟨cs.reverse ++ q.text, .outside⟩⟩ := by
  induction cs generalizing q with
  | nil =>
      obtain ⟨text, escape⟩ := q
      cases hq
      rfl
  | cons c rest ih =>
      rw [List.flatMap_cons, List.foldlM_append, h.escaped hq]
      simp only [Option.bind_eq_bind, Option.bind_some]
      rw [ih rfl, List.reverse_cons, List.append_assoc]
      rfl

theorem TakesText.quoted (h : TakesText e limit frames stage) {before : Reading} {after : Stage}
    {text : String} (hopen : step? e limit before '"' = some ⟨frames, stage .empty⟩)
    (hclose : step? e limit ⟨frames, stage ⟨text.toList.reverse, .outside⟩⟩ '"' =
      some ⟨frames, after⟩) :
    (Json.quoted text).foldlM (step? e limit) before = some ⟨frames, after⟩ := by
  unfold Json.quoted
  rw [List.foldlM_cons, hopen]
  simp only [Option.bind_eq_bind, Option.bind_some, List.foldlM_append]
  rw [h.flatMap rfl]
  simp only [Option.bind_some, List.foldlM_cons, Quotation.empty, List.append_nil, hclose]
  rfl

theorem result_reverse (text : String) :
    Quotation.result ⟨text.toList.reverse, .outside⟩ = text := by
  unfold Quotation.result
  rw [List.reverse_reverse, String.ofList_toList]

theorem foldlM_quoted (text : String) {orClose : Bool} :
    (Json.quoted text).foldlM (step? e limit) ⟨frames, .value orClose⟩ =
      some ⟨frames, .after (.str text)⟩ := by
  apply takesText_text.quoted
  · cases orClose <;> rfl
  · change some (Reading.mk frames (.after (.str (Quotation.result _)))) = _
    rw [result_reverse]

theorem foldlM_quoted_only (text : String) :
    (Json.quoted text).foldlM (step? e limit) ⟨frames, .quoted⟩ =
      some ⟨frames, .after (.str text)⟩ := by
  apply takesText_text.quoted
  · rfl
  · change some (Reading.mk frames (.after (.str (Quotation.result _)))) = _
    rw [result_reverse]

theorem foldlM_quoted_name (done : List (String × Json)) (name : String) {orClose : Bool} :
    (Json.quoted name).foldlM (step? e limit) ⟨frames, .name done orClose⟩ =
      some ⟨frames, .colon done name⟩ := by
  apply (takesText_nameText done).quoted
  · cases orClose <;> rfl
  · change some (Reading.mk frames (.colon done (Quotation.result _))) = _
    rw [result_reverse]

end Reading

end Jobyard.Json
