import Mathlib.Data.List.Basic
import Mathlib.Tactic.Lemma
import WordFields.Text.Line

/-!
# Lines read back

Joined lines are read back as they were but for the carriage returns at their ends: a line feed
that is written behind a line takes along a carriage return there.  Only the last line, which no
line feed follows, is left alone (`lines_joinLines`).  So dropping the blank lines of a text can
leave something to do for a second time, and `dropBlankLines_fixed_iff` says exactly when.
-/

namespace WordFields.Text

variable {line text : List Char}

/-! ## Splitting -/

/-- A line without the carriage return that a line feed behind it takes along. -/
def stripReturn (line : List Char) : List Char :=
  if line.getLast? = some '\r' then line.dropLast else line

lemma stripReturn_eq_self_iff : stripReturn line = line ↔ line.getLast? ≠ some '\r' := by
  unfold stripReturn
  split
  next hlast =>
    refine iff_of_false (fun heq => ?_) (not_not_intro hlast)
    have hlength := congrArg List.length heq
    have hne : line ≠ [] := by
      rintro rfl
      cases hlast
    have hpos := List.length_pos_iff.2 hne
    rw [List.length_dropLast] at hlength
    omega
  next hlast => exact iff_of_true rfl hlast

lemma stripReturn_cons_cons (c c' : Char) (line : List Char) :
    stripReturn (c :: c' :: line) = c :: stripReturn (c' :: line) := by
  unfold stripReturn
  rw [List.getLast?_cons_cons, List.dropLast_cons_cons]
  split <;> rfl

lemma allBlank_stripReturn (line : List Char) : allBlank (stripReturn line) = allBlank line := by
  unfold stripReturn
  split
  next hlast =>
    obtain ⟨front, rfl⟩ := List.getLast?_eq_some_iff.1 hlast
    have hreturn : isBlank '\r' = true := by decide
    rw [List.dropLast_concat, allBlank, allBlank, List.all_append, List.all_cons, hreturn]
    simp
  next => rfl

/-- A character goes to the start of the first line unless it belongs to a line ending. -/
lemma lines_cons {c : Char} (hc : c ≠ '\n') (hreturn : c = '\r' → text.head? ≠ some '\n') :
    lines (c :: text) =
      match lines text with
      | [] => [[c]]
      | line :: rest => (c :: line) :: rest := by
  refine lines.eq_4 c text hc fun text' hcr htext => hreturn hcr ?_
  rw [htext]
  rfl

lemma lines_append_cons (h : '\n' ∉ line) (text : List Char) :
    lines (line ++ '\n' :: text) = stripReturn line :: lines text := by
  induction line with
  | nil => rfl
  | cons c line ih =>
    obtain ⟨hc, hrest⟩ := not_or.1 (mt List.mem_cons.2 h)
    cases line with
    | nil =>
      by_cases hreturn : c = '\r'
      · subst hreturn
        rfl
      · have hkept : stripReturn [c] = [c] := stripReturn_eq_self_iff.2 (by simpa using hreturn)
        rw [List.singleton_append, lines_cons (Ne.symm hc) fun heq => absurd heq hreturn, hkept]
        rfl
    | cons c' line =>
      obtain ⟨hc', -⟩ := not_or.1 (mt List.mem_cons.2 hrest)
      have htext : (c' :: line ++ '\n' :: text).head? ≠ some '\n' := by simpa using Ne.symm hc'
      rw [List.cons_append, lines_cons (Ne.symm hc) fun _ => htext, ih hrest,
        stripReturn_cons_cons]

lemma lines_of_not_mem (h : '\n' ∉ line) (hne : line ≠ []) : lines line = [line] := by
  induction line with
  | nil => exact absurd rfl hne
  | cons c line ih =>
    obtain ⟨hc, hrest⟩ := not_or.1 (mt List.mem_cons.2 h)
    have hhead : line.head? ≠ some '\n' := fun hhead => hrest (List.mem_of_head? hhead)
    rw [lines_cons (Ne.symm hc) fun _ => hhead]
    cases line with
    | nil => rfl
    | cons c' line => rw [ih hrest (List.cons_ne_nil c' line)]

lemma not_mem_of_mem_lines (h : line ∈ lines text) : '\n' ∉ line := by
  induction text using lines.induct generalizing line with
  | case1 => cases h
  | case2 text ih =>
    rcases List.mem_cons.1 h with rfl | hrest
    · exact List.not_mem_nil
    · exact ih hrest
  | case3 text ih =>
    rcases List.mem_cons.1 h with rfl | hrest
    · exact List.not_mem_nil
    · exact ih hrest
  | case4 c text hc hreturn hnil ih =>
    rw [lines.eq_4 c text hc hreturn, hnil, List.mem_singleton] at h
    rw [h, List.mem_singleton]
    exact Ne.symm hc
  | case5 c text hc hreturn first rest hlines ih =>
    rw [hlines] at ih
    rw [lines.eq_4 c text hc hreturn, hlines] at h
    rcases List.mem_cons.1 h with rfl | hrest
    · exact fun hmem => (List.mem_cons.1 hmem).elim (Ne.symm hc) (ih List.mem_cons_self)
    · exact ih (List.mem_cons_of_mem first hrest)

/-! ## Joining -/

lemma lines_joinLines {init : List (List Char)} (hinit : ∀ line ∈ init, '\n' ∉ line)
    (hlast : '\n' ∉ line) (hne : line ≠ []) :
    lines (joinLines (init ++ [line])) = init.map stripReturn ++ [line] := by
  induction init with
  | nil =>
    rw [List.nil_append, joinLines, List.intercalate_singleton]
    exact lines_of_not_mem hlast hne
  | cons first init ih =>
    obtain ⟨hfirst, hrest⟩ := List.forall_mem_cons.1 hinit
    have hsome : init ++ [line] ≠ [] := by simp
    rw [joinLines, List.cons_append, List.intercalate_cons_of_ne_nil hsome, List.append_assoc,
      List.singleton_append, lines_append_cons hfirst, ← joinLines, ih hrest, List.map_cons,
      List.cons_append]

lemma joinLines_inj {ls ls' : List (List Char)} (h : ∀ line ∈ ls, '\n' ∉ line)
    (h' : ∀ line ∈ ls', '\n' ∉ line) (hne : ls ≠ []) (hne' : ls' ≠ []) :
    joinLines ls = joinLines ls' ↔ ls = ls' := by
  refine ⟨fun heq => ?_, congrArg joinLines⟩
  calc ls = (joinLines ls).splitOn '\n' := (List.splitOn_intercalate '\n' h hne).symm
    _ = (joinLines ls').splitOn '\n' := by rw [heq]
    _ = ls' := List.splitOn_intercalate '\n' h' hne'

/-! ## What can be seen -/

/-- The characters of a text that are not blank. -/
def visible (text : List Char) : List Char :=
  text.filter fun c => !isBlank c

lemma visible_eq_nil (h : allBlank line = true) : visible line = [] := by
  refine List.filter_eq_nil_iff.2 fun c hc => ?_
  simp [List.all_eq_true.1 h c hc]

lemma visible_append (text text' : List Char) :
    visible (text ++ text') = visible text ++ visible text' :=
  List.filter_append ..

lemma visible_joinLines (ls : List (List Char)) : visible (joinLines ls) = ls.flatMap visible := by
  have hfeed : visible ['\n'] = [] := visible_eq_nil (by decide)
  induction ls with
  | nil => rfl
  | cons line ls ih =>
    cases ls with
    | nil => simp [joinLines, visible]
    | cons line' ls =>
      rw [List.flatMap_cons, ← ih, joinLines, List.intercalate_cons_cons, ← joinLines,
        visible_append, visible_append, hfeed, List.append_nil]

lemma flatMap_visible_lines (text : List Char) : (lines text).flatMap visible = visible text := by
  induction text using lines.induct with
  | case1 => rfl
  | case2 text ih => exact ih
  | case3 text ih => exact ih
  | case4 c text hc hreturn hnil ih =>
    rw [hnil] at ih
    rw [lines.eq_4 c text hc hreturn, hnil, ← List.singleton_append (l := text), visible_append,
      ← ih]
    rfl
  | case5 c text hc hreturn first rest hlines ih =>
    rw [hlines, List.flatMap_cons] at ih
    rw [lines.eq_4 c text hc hreturn, hlines, List.flatMap_cons,
      ← List.singleton_append (l := text), visible_append, ← ih, ← List.append_assoc,
      ← visible_append, List.singleton_append]

/-! ## Dropping blank lines -/

/-- The lines of a text that are not blank. -/
def keptLines (text : List Char) : List (List Char) :=
  (lines text).filter fun line => !allBlank line

lemma mem_keptLines : line ∈ keptLines text ↔ line ∈ lines text ∧ allBlank line = false := by
  rw [keptLines, List.mem_filter, Bool.not_eq_true']

lemma not_mem_of_mem_keptLines (h : line ∈ keptLines text) : '\n' ∉ line :=
  not_mem_of_mem_lines (mem_keptLines.1 h).1

/-- What is left is read back as lines without the carriage returns at their ends, except for that
of the last one. -/
lemma lines_dropBlankLines (text : List Char) :
    lines (dropBlankLines text) =
      (keptLines text).dropLast.map stripReturn ++ (keptLines text).getLast?.toList := by
  show lines (joinLines (keptLines text)) = _
  rcases List.eq_nil_or_concat' (keptLines text) with hnil | ⟨init, last, hkept⟩
  · rw [hnil]
    rfl
  · have hline : ∀ line ∈ init ++ [last], '\n' ∉ line ∧ line ≠ [] := by
      intro line hmem
      rw [← hkept] at hmem
      refine ⟨not_mem_of_mem_keptLines hmem, ?_⟩
      rintro rfl
      cases (mem_keptLines.1 hmem).2
    obtain ⟨hinit, hlast⟩ := List.forall_mem_append.1 hline
    obtain ⟨hlast, hne⟩ := hlast last (List.mem_singleton_self last)
    rw [hkept, lines_joinLines (fun line hmem => (hinit line hmem).1) hlast
      hne, List.dropLast_concat, List.getLast?_concat]
    rfl

lemma allBlank_of_mem_lines_dropBlankLines (h : line ∈ lines (dropBlankLines text)) :
    allBlank line = false := by
  rw [lines_dropBlankLines, List.mem_append] at h
  rcases h with hinit | hlast
  · obtain ⟨line, hmem, rfl⟩ := List.mem_map.1 hinit
    rw [allBlank_stripReturn]
    exact (mem_keptLines.1 (List.dropLast_subset _ hmem)).2
  · exact (mem_keptLines.1 (List.mem_of_getLast? (Option.mem_toList.1 hlast))).2

lemma keptLines_dropBlankLines (text : List Char) :
    keptLines (dropBlankLines text) = lines (dropBlankLines text) := by
  refine List.filter_eq_self.2 fun line hmem => ?_
  rw [allBlank_of_mem_lines_dropBlankLines hmem]
  rfl

lemma visible_dropBlankLines (text : List Char) : visible (dropBlankLines text) = visible text := by
  have hkept : ∀ ls : List (List Char),
      (ls.filter fun line => !allBlank line).flatMap visible = ls.flatMap visible := by
    intro ls
    induction ls with
    | nil => rfl
    | cons line ls ih =>
      rw [List.filter_cons, List.flatMap_cons]
      split
      next => rw [List.flatMap_cons, ih]
      next hblank => rw [visible_eq_nil (by simpa using hblank), ih, List.nil_append]
  rw [dropBlankLines, visible_joinLines, hkept, flatMap_visible_lines]

/-- Dropping blank lines leaves none, and every character that is not blank stays.  There is
nothing to do a second time exactly if no line that stays, but for the last one, ends with a
carriage return. -/
theorem dropBlankLines_fixed_iff (text : List Char) :
    (dropBlankLines (dropBlankLines text) = dropBlankLines text ↔
      ∀ line ∈ (keptLines text).dropLast, line.getLast? ≠ some '\r') ∧
    (∀ line ∈ lines (dropBlankLines text), allBlank line = false) ∧
    visible (dropBlankLines text) = visible text := by
  refine ⟨?_, fun _ => allBlank_of_mem_lines_dropBlankLines, visible_dropBlankLines text⟩
  show joinLines (keptLines (dropBlankLines text)) = joinLines (keptLines text) ↔ _
  rw [keptLines_dropBlankLines]
  rcases List.eq_nil_or_concat' (keptLines text) with hnil | ⟨init, last, hkept⟩
  · simp [lines_dropBlankLines, hnil]
  · have hlines := lines_dropBlankLines text
    rw [hkept, List.dropLast_concat, List.getLast?_concat, Option.toList_some] at hlines
    have hne : lines (dropBlankLines text) ≠ [] := by simp [hlines]
    have hne' : keptLines text ≠ [] := by simp [hkept]
    calc joinLines (lines (dropBlankLines text)) = joinLines (keptLines text)
        ↔ lines (dropBlankLines text) = keptLines text :=
          joinLines_inj (fun _ => not_mem_of_mem_lines) (fun _ => not_mem_of_mem_keptLines) hne hne'
      _ ↔ init.map stripReturn = init.map id := by
        rw [hlines, hkept, List.append_left_inj, List.map_id]
      _ ↔ ∀ line ∈ (keptLines text).dropLast, line.getLast? ≠ some '\r' := by
        rw [hkept, List.dropLast_concat, List.map_inj_left]
        exact forall₂_congr fun line _ => stripReturn_eq_self_iff

/-- Of two carriage returns in front of a line feed the first takes the place of the second. -/
theorem not_dropBlankLines_fixed :
    dropBlankLines (dropBlankLines ['a', '\r', '\r', '\n', 'b']) ≠
      dropBlankLines ['a', '\r', '\r', '\n', 'b'] := by
  decide

end WordFields.Text
