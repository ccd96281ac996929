import Mathlib.Algebra.Order.BigOperators.Group.List
import Mathlib.Algebra.Order.Group.Nat
import MiniOs.User.Shell

/-!
# What the shell accepts

A word is not empty, has no terminator in it and fits a slot. It is also not longer
than the piece of the line it was read from, and that bound is the one that counts:
sixteen words of a slot each would be too much for `execve`, but they do not come from
a line of 255 bytes.
-/

namespace MiniOs.User

open MiniOs.Lib MiniOs.Fs MiniOs.Kernel

/-! ## Words -/

variable {cursor rest : List UInt8} {capacity : Nat} {command : Command}

theorem quoteMark_suffix {quote character q : UInt8}
    (h : quoteMark quote character cursor = some (q, rest)) : rest <:+ cursor := by
  unfold quoteMark at h
  dsimp only at h
  split_ifs at h <;> cases h
  all_goals first | exact List.suffix_rfl | exact List.drop_suffix 2 cursor

theorem escape_bytes (character : UInt8) (cursor : List UInt8) :
    (escape character cursor).1 ∈ character :: cursor ∧ (escape character cursor).2 <:+ cursor := by
  unfold escape
  split
  · exact ⟨List.mem_cons_self, List.suffix_rfl⟩
  · split
    · exact ⟨List.mem_cons_of_mem _ List.mem_cons_self, List.suffix_cons _ _⟩
    · exact ⟨List.mem_cons_self, List.suffix_rfl⟩

/-- A word with the rest of the line, from a word begun and a cursor. -/
structure WordFrom (capacity : Nat) (begun cursor word rest : List UInt8) : Prop where
  ne_nil : word ≠ []
  fits : word.length < capacity
  bytes : ∀ c ∈ word, c ∈ begun ∨ c ∈ cursor
  length : word.length + rest.length ≤ begun.length + cursor.length
  suffix : rest <:+ cursor

theorem wordEnd_from {quote : UInt8} {begun word : List UInt8} (hfits : begun.length < capacity)
    (h : wordEnd quote begun cursor = some (word, rest)) :
    WordFrom capacity begun cursor word rest := by
  unfold wordEnd at h
  split at h
  · cases h
  · next hend =>
    cases h
    exact ⟨fun hnil => hend (.inr hnil), hfits, fun c hc => .inl hc, Nat.le_refl _, List.suffix_rfl⟩

theorem wordLoop_from (fuel : Nat) :
    ∀ {quote : UInt8} {begun cursor word rest : List UInt8}, begun.length < capacity →
      wordLoop capacity fuel quote begun cursor = some (word, rest) →
      WordFrom capacity begun cursor word rest := by
  induction fuel with
  | zero => exact fun hfits h => wordEnd_from hfits h
  | succ fuel ih =>
    intro quote begun cursor word rest hfits h
    cases cursor with
    | nil => exact wordEnd_from hfits h
    | cons character cursor =>
      unfold wordLoop at h
      split at h
      · exact wordEnd_from hfits h
      split at h
      · next q cursor' hmark =>
        have hsuffix : cursor' <:+ character :: cursor :=
          (quoteMark_suffix hmark).trans (List.suffix_cons _ _)
        have hword := ih hfits h
        exact ⟨hword.ne_nil, hword.fits,
          fun c hc => (hword.bytes c hc).imp_right fun hin => hsuffix.subset hin,
          Nat.le_trans hword.length (Nat.add_le_add_left hsuffix.length_le _),
          hword.suffix.trans hsuffix⟩
      · obtain ⟨hmem, hsuffix⟩ := escape_bytes character cursor
        generalize escape character cursor = escaped at h hmem hsuffix
        obtain ⟨c, cursor'⟩ := escaped
        dsimp only at h hmem hsuffix
        split at h
        · cases h
        next hroom =>
        have hsuffix' : cursor' <:+ character :: cursor :=
          hsuffix.trans (List.suffix_cons _ _)
        have hword := ih (by rw [List.length_append]; exact Nat.lt_of_not_le hroom) h
        refine ⟨hword.ne_nil, hword.fits, fun x hx => ?_, ?_, hword.suffix.trans hsuffix'⟩
        · rcases hword.bytes x hx with hin | hin
          · rcases List.mem_append.mp hin with hin | hin
            · exact .inl hin
            · rw [List.mem_singleton.mp hin]
              exact .inr hmem
          · exact .inr (hsuffix'.subset hin)
        · have hlength := hword.length
          have hle := hsuffix.length_le
          rw [List.length_append, List.length_singleton] at hlength
          rw [List.length_cons]
          omega

theorem nextWord_from {word : List UInt8} (hpos : 0 < capacity)
    (h : nextWord cursor capacity = some (word, rest)) :
    WordFrom capacity [] cursor word rest := wordLoop_from _ hpos h

/-! ## Commands -/

/-- A command read from the first part of a line of `n` bytes, with the rest of it. -/
structure Fits (n : Nat) (command : Command) (cursor : List UInt8) : Prop where
  slots : ∀ word ∈ command.storage, word ≠ [] ∧ word.length < slotSize ∧ 0 ∉ word
  argv : command.argv.Sublist (List.range command.storage.length)
  argc : command.argv.length ≤ argMax
  length : (command.storage.map List.length).sum + cursor.length ≤ n
  noNul : 0 ∉ cursor

namespace Fits

variable {n : Nat} {command command' : Command} {cursor cursor' word rest : List UInt8}

theorem zero (hnul : 0 ∉ cursor) : Fits cursor.length Command.zero cursor where
  slots _ h := absurd h List.not_mem_nil
  argv := List.nil_sublist _
  argc := Nat.zero_le _
  length := Nat.le_of_eq (Nat.zero_add _)
  noNul := hnul

variable (h : Fits n command cursor)
include h

theorem skip (hsuffix : cursor' <:+ cursor) : Fits n command cursor' where
  slots := h.slots
  argv := h.argv
  argc := h.argc
  length := Nat.le_trans (Nat.add_le_add_left hsuffix.length_le _) h.length
  noNul hin := h.noNul (hsuffix.subset hin)

theorem store (hword : nextWord cursor slotSize = some (word, rest)) :
    Fits n { command with storage := command.storage ++ [word] } rest := by
  have hfrom := nextWord_from (by decide) hword
  refine ⟨fun w hw => ?_, ?_, h.argc, ?_, fun hin => h.noNul (hfrom.suffix.subset hin)⟩
  · rcases List.mem_append.mp hw with hw | hw
    · exact h.slots w hw
    · obtain rfl := List.mem_singleton.mp hw
      refine ⟨hfrom.ne_nil, hfrom.fits, fun hnul => ?_⟩
      exact h.noNul ((hfrom.bytes 0 hnul).resolve_left List.not_mem_nil)
  · refine h.argv.trans ?_
    dsimp only
    rw [List.length_append, List.length_singleton, List.range_succ]
    exact List.sublist_append_left _ _
  · have hlength := h.length
    have hmore := hfrom.length
    dsimp only
    rw [List.map_append, List.sum_append, List.map_singleton, List.sum_singleton]
    rw [List.length_nil] at hmore
    omega

theorem argument (hroom : command.argv.length < argMax)
    (hword : nextWord cursor slotSize = some (word, rest)) :
    Fits n { command with
        storage := command.storage ++ [word]
        argv := command.argv ++ [command.storage.length] }
      rest := by
  have hstored := h.store hword
  refine ⟨hstored.slots, ?_, ?_, hstored.length, hstored.noNul⟩
  · dsimp only
    rw [List.length_append, List.length_singleton, List.range_succ]
    exact h.argv.append (List.Sublist.refl _)
  · dsimp only
    rw [List.length_append, List.length_singleton]
    exact hroom

theorem redirect {operator : Operator} {path : Nat}
    (hredirect : User.redirect command operator path = some command') :
    Fits n command' cursor := by
  unfold User.redirect at hredirect
  cases operator
  all_goals
    dsimp only at hredirect
    split at hredirect
    · cases hredirect
    · cases hredirect
      exact ⟨h.slots, h.argv, h.argc, h.length, h.noNul⟩

end Fits

theorem readOperator_suffix (character : UInt8) (cursor : List UInt8) :
    (readOperator character cursor).2 <:+ cursor := by
  unfold readOperator
  split
  · exact List.suffix_rfl
  · split
    · exact List.suffix_cons _ _
    · exact List.suffix_rfl

theorem parseLoop_fits {n : Nat} (fuel : Nat) :
    ∀ {command command' : Command} {cursor : List UInt8}, Fits n command cursor →
      parseLoop fuel command cursor = some command' → ∃ rest, Fits n command' rest := by
  induction fuel with
  | zero =>
    intro command command' cursor h hparse
    cases hparse
    exact ⟨cursor, h⟩
  | succ fuel ih =>
    intro command command' cursor h hparse
    have hskip := h.skip (List.dropWhile_suffix isSpace)
    unfold parseLoop at hparse
    split at hparse
    · cases hparse
      exact ⟨cursor, h⟩
    next character cursor' hcursor =>
    rw [hcursor] at hskip
    split at hparse
    · split at hparse
      · cases hparse
      · cases hparse
        exact ⟨_, hskip.slots, hskip.argv, hskip.argc, hskip.length, hskip.noNul⟩
    split at hparse
    · have hsuffix := readOperator_suffix character cursor'
      generalize readOperator character cursor' = operation at hparse hsuffix
      obtain ⟨operator, cursor''⟩ := operation
      dsimp only at hparse hsuffix
      split at hparse
      · cases hparse
      split at hparse
      · cases hparse
      · next word rest hword =>
        split at hparse
        · cases hparse
        · next hredirect =>
          have hpath := hskip.skip
            ((List.dropWhile_suffix isSpace).trans (hsuffix.trans (List.suffix_cons _ _)))
          exact ih ((hpath.store hword).redirect hredirect) hparse
    · split at hparse
      · cases hparse
      · next hroom =>
        split at hparse
        · cases hparse
        · next word rest hword =>
          exact ih (hskip.argument (by omega) hword) hparse

/-- The words are among the slots. -/
theorem Fits.words {n : Nat} (h : Fits n command cursor) :
    command.words.Sublist command.storage := by
  have hall : (List.range command.storage.length).map command.word = command.storage := by
    refine List.ext_getElem (by simp) fun i hi hi' => ?_
    simp [Command.word, hi']
  have hmap := h.argv.map command.word
  rw [hall] at hmap
  exact hmap

/-- A command has at most sixteen words, which fit the slots, and altogether they are
not longer than the line. -/
theorem parseCommand_words {line : List UInt8} (hnul : 0 ∉ line) {result : Nat}
    (h : parseCommand line = some (command, result)) :
    command.words.length ≤ argMax ∧
      (∀ word ∈ command.words, word ≠ [] ∧ word.length < slotSize ∧ 0 ∉ word) ∧
      (command.words.map List.length).sum ≤ line.length := by
  unfold parseCommand at h
  obtain ⟨command', hparse, heq⟩ := Option.map_eq_some_iff.mp h
  cases heq
  obtain ⟨rest, hfits⟩ := parseLoop_fits _ (Fits.zero hnul) hparse
  have hwords := hfits.words
  refine ⟨?_, fun word hword => hfits.slots word (hwords.subset hword), ?_⟩
  · unfold Command.words
    rw [List.length_map]
    exact hfits.argc
  · calc (command.words.map List.length).sum ≤ (command.storage.map List.length).sum :=
          (hwords.map List.length).sum_le_sum fun _ _ => Nat.zero_le _
      _ ≤ (command.storage.map List.length).sum + rest.length := Nat.le_add_right _ _
      _ ≤ line.length := hfits.length

/-- Result 0 is for a command with a word. -/
theorem parseCommand_ne_nil {line : List UInt8} (h : parseCommand line = some (command, 0)) :
    command.words ≠ [] := by
  unfold parseCommand at h
  obtain ⟨command', -, heq⟩ := Option.map_eq_some_iff.mp h
  obtain ⟨rfl, hresult⟩ := Prod.mk.inj heq
  intro hnil
  have hargc : command'.argv.length = 0 := by
    rw [List.length_eq_zero_iff]
    exact List.map_eq_nil_iff.mp hnil
  rw [if_pos hargc] at hresult
  cases hresult

end MiniOs.User
