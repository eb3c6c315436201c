import MergeCore.Differ.Script
import MergeCore.Diff3.Model
import Mathlib.Data.List.Infix
import Mathlib.Data.String.Basic

/-! # The lines of a blob, written back

`getFileLines` reads a blob through a `bufio.Scanner` with `ScanLines`, and `writeBlockToFile`
writes each line followed by a newline. The scanner's recursion is `List.splitOnP`'s at the
newline, so its lines are the blob's newline-separated pieces:

* `scanLines_ok_iff`: the scan ends without error exactly when every piece has fewer than
  `maxScanTokenSize` bytes.
* `writeBlockToFile_getFileLines`: then writing the lines back gives the blob, when it is empty
  or ends with a newline and has no carriage return before a newline.
* `getFileLines_normalises`: otherwise the round trip does not give the blob back. A last line
  gains a newline, a carriage return before a newline goes (so `a\r` and `a` are one line to
  the differ), and a line of `maxScanTokenSize` bytes makes the scan fail.
-/

namespace MergeCore

/-! ## Sizes and strings -/

theorem utf8Len_replicate (n : Nat) : String.utf8Len (List.replicate n 'a') = n := by
  induction n with
  | zero => rfl
  | succ n ih => rw [List.replicate_succ, String.utf8Len_cons, ih]; rfl

theorem data_foldl_append (l : List String) (a : String) :
    (l.foldl (· ++ ·) a).data = a.data ++ (l.map String.data).flatten := by
  induction l generalizing a with
  | nil => simp
  | cons s l ih => simp [ih]

/-- What `writeBlockToFile` writes, as characters. -/
theorem data_join_writeBlockToFile (ls : List String) :
    (String.join (writeBlockToFile ls)).data = (ls.map fun l => l.data ++ ['\n']).flatten := by
  rw [String.join, data_foldl_append, writeBlockToFile, List.map_map]
  rfl

theorem texts_getFileLinesFrom : ∀ (i : Nat) (ts : List String), texts (getFileLinesFrom i ts) = ts
  | _, [] => rfl
  | i, t :: ts => congrArg (t :: ·) (texts_getFileLinesFrom (i + 1) ts)

/-! ## The scanner -/

theorem splitOnP_go_nil (p : Char → Bool) (acc : List Char) :
    List.splitOnP.go p [] acc = [acc.reverse] := rfl

theorem splitOnP_go_cons (p : Char → Bool) (c : Char) (cs acc : List Char) :
    List.splitOnP.go p (c :: cs) acc =
      if p c then acc.reverse :: List.splitOnP.go p cs [] else List.splitOnP.go p cs (c :: acc) :=
  rfl

/-- The scan from a partial line succeeds exactly when every piece left is short. -/
theorem scanLinesFrom_ok_iff : ∀ (cs acc : List Char),
    (scanLinesFrom cs acc).2 = true ↔
      ∀ l ∈ List.splitOnP.go (· == '\n') cs acc, (String.mk l).utf8ByteSize < maxScanTokenSize
  | [], acc => by
    rw [splitOnP_go_nil, scanLinesFrom]
    by_cases h : acc = []
    · subst h
      exact iff_of_true rfl fun l hl => by
        rw [List.reverse_nil, List.mem_singleton] at hl
        subst hl
        decide
    · by_cases hs : maxScanTokenSize ≤ String.utf8Len acc
      · simp [h, hs]
      · simp [h, hs]
        omega
  | c :: cs, acc => by
    rw [splitOnP_go_cons, scanLinesFrom]
    by_cases hc : c = '\n'
    · by_cases hs : maxScanTokenSize ≤ String.utf8Len acc
      · simp [hc, hs]
      · simp only [hc, String.utf8ByteSize_mk, String.utf8Len_reverse, hs, if_true, if_false,
          beq_self_eq_true, scanLinesFrom_ok_iff cs [], List.mem_cons, forall_eq_or_imp]
        exact ⟨fun h => ⟨Nat.lt_of_not_le hs, h⟩, fun h => h.2⟩
    · simp [hc, scanLinesFrom_ok_iff cs (c :: acc)]

/-- The scan succeeds exactly when every newline-separated piece of the blob is short. -/
theorem scanLines_ok_iff (s : String) :
    (scanLines s).2 = true ↔
      ∀ l ∈ s.toList.splitOn '\n', (String.mk l).utf8ByteSize < maxScanTokenSize :=
  scanLinesFrom_ok_iff s.toList []

/-- A line whose last character is a carriage return, followed by a newline, holds `\r\n`. -/
theorem cr_infix_of_getLast {xs : List Char} (h : xs.getLast? = some '\r') (ys : List Char) :
    ['\r', '\n'] <:+: xs ++ '\n' :: ys := by
  obtain ⟨zs, rfl⟩ : ∃ zs, xs = zs ++ ['\r'] :=
    ⟨xs.dropLast, (List.dropLast_append_getLast? _ h).symm⟩
  exact ⟨zs, ys, by simp⟩

/-- From a partial line without newline, a successful scan of the rest, written back line by
line, is the partial line and the rest, when together they end with a newline (or are empty)
and hold no `\r\n`. -/
theorem scanLinesFrom_roundTrip : ∀ (cs acc : List Char), '\n' ∉ acc →
    (scanLinesFrom cs acc).2 = true →
    (acc.reverse ++ cs = [] ∨ (acc.reverse ++ cs).getLast? = some '\n') →
    ¬ ['\r', '\n'] <:+: acc.reverse ++ cs →
    ((scanLinesFrom cs acc).1.map fun l => l.data ++ ['\n']).flatten = acc.reverse ++ cs
  | [], acc, hacc, _, hend, _ => by
    cases acc with
    | nil => simp [scanLinesFrom]
    | cons a acc =>
      have ha : a ≠ '\n' := fun h => hacc (h ▸ List.mem_cons_self a acc)
      simp [List.getLast?_append, ha] at hend
  | c :: cs, acc, hacc, hok, hend, hcr => by
    by_cases hc : c = '\n'
    · subst hc
      have hs : ¬ maxScanTokenSize ≤ String.utf8Len acc := fun hs => by
        simp [scanLinesFrom, hs] at hok
      have hok' : (scanLinesFrom cs []).2 = true := by simpa [scanLinesFrom, hs] using hok
      have hdrop : dropCR acc.reverse = acc.reverse := by
        unfold dropCR
        rw [if_neg fun h => hcr (cr_infix_of_getLast h cs)]
      have hend' : [].reverse ++ cs = [] ∨ ([].reverse ++ cs).getLast? = some '\n' := by
        cases cs with
        | nil => exact .inl rfl
        | cons c' cs' =>
          right
          simpa [List.getLast?_append] using hend
      have hsuf : cs <:+: acc.reverse ++ '\n' :: cs := ⟨acc.reverse ++ ['\n'], [], by simp⟩
      have hcr' : ¬ ['\r', '\n'] <:+: [].reverse ++ cs := fun h =>
        hcr ((by simpa using h : ['\r', '\n'] <:+: cs).trans hsuf)
      have ih := scanLinesFrom_roundTrip cs [] (List.not_mem_nil _) hok' hend' hcr'
      simp only [List.reverse_nil, List.nil_append] at ih
      simp [scanLinesFrom, hs, hdrop, ih]
    · have h := scanLinesFrom_roundTrip cs (c :: acc) (by simp [Ne.symm hc, hacc])
        (by simpa [scanLinesFrom, hc] using hok) (by simpa using hend) (by simpa using hcr)
      simpa [scanLinesFrom, hc] using h

/-! ## The round trip -/

/-- For a blob that is empty or ends with a newline, has no carriage return before a newline,
and whose lines are all shorter than the scanner's buffer, `getFileLines` succeeds and
`writeBlockToFile` of its lines writes the blob back. -/
theorem writeBlockToFile_getFileLines (s : String)
    (hend : s = "" ∨ s.toList.getLast? = some '\n') (hcr : ¬ ['\r', '\n'] <:+: s.toList)
    (hlong : ∀ l ∈ s.toList.splitOn '\n', (String.mk l).utf8ByteSize < maxScanTokenSize) :
    ∃ ls, scanLines s = (ls, true) ∧ String.join (writeBlockToFile (texts (getFileLines ls))) = s := by
  have hok := (scanLines_ok_iff s).2 hlong
  refine ⟨(scanLines s).1, by rw [← hok], String.ext ?_⟩
  rw [getFileLines, texts_getFileLinesFrom, data_join_writeBlockToFile]
  refine scanLinesFrom_roundTrip s.toList [] (List.not_mem_nil _) hok ?_ hcr
  rcases hend with rfl | h
  · exact .inl rfl
  · exact .inr h

theorem writeBlockToFile_getFileLines_two_lines :
    ("a\nb\n" = "" ∨ "a\nb\n".toList.getLast? = some '\n') ∧ ¬ ['\r', '\n'] <:+: "a\nb\n".toList ∧
      (∀ l ∈ "a\nb\n".toList.splitOn '\n', (String.mk l).utf8ByteSize < maxScanTokenSize) ∧
      ∃ ls, scanLines "a\nb\n" = (ls, true) ∧
        String.join (writeBlockToFile (texts (getFileLines ls))) = "a\nb\n" :=
  have hend : "a\nb\n" = "" ∨ "a\nb\n".toList.getLast? = some '\n' := .inr rfl
  have hcr : ¬ ['\r', '\n'] <:+: "a\nb\n".toList := by decide
  have hlong : ∀ l ∈ "a\nb\n".toList.splitOn '\n',
      (String.mk l).utf8ByteSize < maxScanTokenSize := by decide
  ⟨hend, hcr, hlong, writeBlockToFile_getFileLines "a\nb\n" hend hcr hlong⟩

/-- Three blobs the round trip changes: a last line without newline gains one, a carriage
return before a newline is dropped, and a line of `maxScanTokenSize` bytes makes the scan
fail. -/
theorem getFileLines_normalises :
    scanLines "a" = (["a"], true) ∧ String.join (writeBlockToFile (texts (getFileLines ["a"]))) = "a\n" ∧
      scanLines "a\r\n" = (["a"], true) ∧
      (scanLines (String.mk (List.replicate maxScanTokenSize 'a'))).2 = false := by
  refine ⟨by decide, by decide, by decide, ?_⟩
  have hsplit : ∀ n acc, List.splitOnP.go (· == '\n') (List.replicate n 'a') acc =
      [acc.reverse ++ List.replicate n 'a'] := by
    intro n
    induction n with
    | zero => intro acc; simp [splitOnP_go_nil]
    | succ n ih => intro acc; simp [List.replicate_succ, splitOnP_go_cons, ih]
  rw [Bool.eq_false_iff, ne_eq, scanLines_ok_iff]
  show ¬ ∀ l ∈ List.splitOnP.go (· == '\n') (List.replicate maxScanTokenSize 'a') [], _
  rw [hsplit]
  simp [utf8Len_replicate]

end MergeCore
