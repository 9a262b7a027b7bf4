import RuleFilter.Command.Basic
import RuleFilter.Host.Tree
import RuleFilter.Proofs.Rule.Parse
import RuleFilter.Proofs.Token.Tile

/-!
Where filters come from. A file stands for the text that it holds, though blanks at its end are
dropped and the limit on its size is checked before that and once more after it.
-/

namespace RuleFilter

namespace Rule

open Grammar

variable {limits : Limits} {text : String} {r : Rule}

theorem parse_eq_ok_iff_scanned : parse limits text = .ok r ↔ text.utf8ByteSize ≤ limits.size ∧
    (∃ ls, Token.Scanned text.toList ls ∧ Derives (.chain .or) ls r ∧
      nesting 0 ls ≤ limits.depth) ∧ r.leafCount ≤ limits.conditions := by
  rw [parse_eq_ok_iff_derives]
  refine and_congr_right fun _ => and_congr_left fun _ => ?_
  constructor
  · rintro ⟨ts, hts, hr⟩
    exact ⟨_, ⟨ts, hts, rfl⟩, hr⟩
  · rintro ⟨_, ⟨ts, hts, rfl⟩, hr⟩
    exact ⟨ts, hts, hr⟩

/-- Blanks at the end of a text that is short enough do not matter. -/
theorem parse_trimEnd_iff (h : text.utf8ByteSize ≤ limits.size) :
    parse limits (String.ofList (Text.trimEnd text.toList)) = .ok r ↔
      parse limits text = .ok r := by
  obtain ⟨blanks, htext, hblanks⟩ := Text.trimEnd_append_blanks text.toList
  have hbytes : (String.ofList (Text.trimEnd text.toList)).utf8ByteSize ≤ text.utf8ByteSize := by
    have htotal := congrArg Text.byteLength htext
    rw [Text.byteLength_append, Text.byteLength_toList] at htotal
    rw [Text.utf8ByteSize_ofList]
    omega
  have hscanned (ls : List Lexeme) : Token.Scanned (Text.trimEnd text.toList) ls ↔
      Token.Scanned text.toList ls := by
    rw [← Token.scanned_append_blanks_iff hblanks, ← htext]
  rw [parse_eq_ok_iff_scanned, parse_eq_ok_iff_scanned, String.toList_ofList]
  simp only [hscanned, h, Nat.le_trans hbytes h]

end Rule

namespace TextArgument

variable {h : Host} {most : Nat} {path text content : String}

/-- A file is read where it is no larger than may be, without the blanks at its end. -/
theorem read_file_eq_ok_iff (hfile : h.node? (h.expand path) = some (.file text.toByteArray)) :
    read h most ("@" ++ path) = .ok content ↔
      text.utf8ByteSize ≤ most ∧ content = String.ofList (Text.trimEnd text.toList) := by
  have harg : ("@" ++ path).toList = '@' :: path.toList := String.toList_append
  rw [read, harg]
  show readFile h most (h.expand (String.ofList path.toList)) = _ ↔ _
  rw [String.ofList_toList, readFile, Host.size?_of_file hfile, Host.text?_of_file hfile]
  show (if most < text.utf8ByteSize then _ else accept most text) = _ ↔ _
  rw [accept]
  split
  · next hlarge => simp [Nat.not_le.2 hlarge]
  · next hsmall => simp [Nat.not_lt.1 hsmall, @eq_comm _ content]

end TextArgument

namespace Command

/-- A file that holds a text is read as the rule that the text is read as, under all limits, and
only where the text is read at all: neither the blanks that are dropped nor the second check of the
size make a difference. -/
theorem readRule_file {h : Host} {path text : String}
    (hfile : h.node? (h.expand path) = some (.file text.toByteArray)) (s : Settings) (r : Rule) :
    readRule h s ("@" ++ path) false = .ok r ↔ Rule.parse s.limits text = .ok r := by
  simp only [readRule, bind_eq_ok_iff, mapError_eq_ok_iff, TextArgument.read_file_eq_ok_iff hfile,
    Bool.false_eq_true, if_false]
  constructor
  · rintro ⟨_, ⟨hsize, rfl⟩, hr⟩
    exact (Rule.parse_trimEnd_iff hsize).1 hr
  · intro hr
    have hsize := (Rule.parse_eq_ok_iff.1 hr).1
    exact ⟨_, ⟨hsize, rfl⟩, (Rule.parse_trimEnd_iff hsize).2 hr⟩

/-- A file of 17 bytes, of which the last five are blanks; its string ends with a blank as well. -/
def lateHost : Host :=
  .ofFiles "/home/ada" "/work" [("/home/ada/late.txt", "due < \"now \" \u2003\n".toByteArray)]

/-- The blanks at the end count for the limit on the size. -/
theorem readRule_file_late :
    lateHost.node? (lateHost.expand " ~/late.txt") =
        some (.file "due < \"now \" \u2003\n".toByteArray) ∧
      readRule lateHost { limits := ⟨17, 0, 1⟩ } "@ ~/late.txt" false =
        .ok (.leaf ⟨"due", .lt, .single (.string "now ")⟩) ∧
      ¬ ∃ r, readRule lateHost { limits := ⟨16, 0, 1⟩ } "@ ~/late.txt" false = .ok r := by
  have hfile : lateHost.node? (lateHost.expand " ~/late.txt") =
      some (.file "due < \"now \" \u2003\n".toByteArray) := by
    have hpath : lateHost.expand " ~/late.txt" = "/home/ada/late.txt" := by decide +kernel
    rw [hpath]
    rfl
  have hscanned : Token.Scanned "due < \"now \" \u2003\n".toList
      [.word "due", .compare .lt, .string "now "] := by decide +kernel
  have hfield : Grammar.IsField (.word "due") "due" := Grammar.isField_word_iff.2 ⟨rfl, by decide⟩
  have hderives := Grammar.Derives.single .or
    (.single .and (.comparison (.test hfield (.compare .lt (.string "now ")))))
  refine ⟨hfile, ?_, ?_⟩
  · exact (readRule_file hfile { limits := ⟨17, 0, 1⟩ } _).2 (Rule.parse_eq_ok_iff_scanned.2
      ⟨by decide, ⟨_, hscanned, hderives, by decide⟩, by simp [Rule.leafCount]⟩)
  · rintro ⟨r, hr⟩
    have hsize := (Rule.parse_eq_ok_iff.1 ((readRule_file hfile _ _).1 hr)).1
    exact absurd hsize (by decide)

end Command

end RuleFilter
