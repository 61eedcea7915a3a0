import Mathlib.Data.List.Nodup
import Mathlib.Tactic

/-!
# Options among words

A command line is a list of words.  An option is a key, with a value behind it or without; the
program looks for the first occurrence of a key and takes the word behind it.  Settings that are
written one behind the other in any order are read back, as long as no value is taken for a key.
-/

namespace RunPerf.Lib

variable {α : Type*} [DecidableEq α]

/-- The word behind the first `key`. -/
def wordAfter (words : List α) (key : α) : Option α :=
  (words.findIdx? (· = key)).bind fun i => words[i + 1]?

/-- A key with its value, if it has one. -/
structure Setting (α : Type*) where
  key : α
  value : Option α

def Setting.words (setting : Setting α) : List α := setting.key :: setting.value.toList

/-- The words of settings, one behind the other. -/
def settingWords (settings : List (Setting α)) : List α := settings.flatMap Setting.words

section Words

variable {key word : α} {words rest : List α}

theorem wordAfter_cons_self (key : α) (rest : List α) :
    wordAfter (key :: rest) key = rest.head? := by
  simp [wordAfter, List.findIdx?_cons, List.head?_eq_getElem?]

theorem wordAfter_cons_of_ne (h : word ≠ key) :
    wordAfter (word :: rest) key = wordAfter rest key := by
  unfold wordAfter
  rw [List.findIdx?_cons, if_neg (by simpa using h), Option.bind_map]
  rfl

theorem wordAfter_eq_none (h : key ∉ words) : wordAfter words key = none := by
  induction words with
  | nil => rfl
  | cons word rest ih =>
      obtain ⟨hword, hrest⟩ := not_or.mp fun hmem => h (List.mem_cons.mpr hmem)
      rw [wordAfter_cons_of_ne (Ne.symm hword), ih hrest]

theorem wordAfter_append (h : key ∉ words) :
    wordAfter (words ++ rest) key = wordAfter rest key := by
  induction words with
  | nil => rfl
  | cons word more ih =>
      obtain ⟨hword, hmore⟩ := not_or.mp fun hmem => h (List.mem_cons.mpr hmem)
      rw [List.cons_append, wordAfter_cons_of_ne (Ne.symm hword), ih hmore]

end Words

section Settings

variable {keys : List α} {settings : List (Setting α)} {key : α}

/-- No value can be taken for one of the keys. -/
def Clear (keys : List α) (settings : List (Setting α)) : Prop :=
  ∀ setting ∈ settings, ∀ value ∈ setting.value, value ∉ keys

omit [DecidableEq α] in
theorem Clear.mem_settingWords_iff (h : Clear keys settings) (hkey : key ∈ keys) :
    key ∈ settingWords settings ↔ key ∈ settings.map Setting.key := by
  simp only [settingWords, List.mem_flatMap, List.mem_map, Setting.words, List.mem_cons,
    Option.mem_toList]
  constructor
  · rintro ⟨setting, hmem, hsame | hvalue⟩
    · exact ⟨setting, hmem, hsame.symm⟩
    · exact absurd hkey (h setting hmem key hvalue)
  · rintro ⟨setting, hmem, hsame⟩
    exact ⟨setting, hmem, .inl hsame.symm⟩

/-- **A setting is read back**, wherever it stands. -/
theorem Clear.wordAfter_settingWords (h : Clear keys settings)
    (hnodup : (settings.map Setting.key).Nodup) {setting : Setting α} (hmem : setting ∈ settings)
    (hkey : setting.key ∈ keys) {value : α} (hvalue : setting.value = some value) :
    wordAfter (settingWords settings) setting.key = some value := by
  obtain ⟨before, after, rfl⟩ := List.append_of_mem hmem
  have hbefore : setting.key ∉ settingWords before := by
    have hclear : Clear keys before := fun other hother =>
      h other (List.mem_append_left _ hother)
    rw [hclear.mem_settingWords_iff hkey]
    intro hother
    rw [List.map_append, List.map_cons] at hnodup
    exact (List.nodup_append.mp hnodup).2.2 _ hother _ List.mem_cons_self rfl
  have hwords : settingWords (before ++ setting :: after) =
      settingWords before ++ setting.key :: value :: settingWords after := by
    simp [settingWords, Setting.words, hvalue]
  rw [hwords, wordAfter_append hbefore, wordAfter_cons_self]
  rfl

theorem Clear.wordAfter_eq_none (h : Clear keys settings) (hkey : key ∈ keys)
    (hnone : key ∉ settings.map Setting.key) : wordAfter (settingWords settings) key = none :=
  Lib.wordAfter_eq_none fun hmem => hnone ((h.mem_settingWords_iff hkey).mp hmem)

end Settings

end RunPerf.Lib
