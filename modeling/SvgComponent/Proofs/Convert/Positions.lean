/-
  SvgComponent.Proofs.Convert.Positions — no text makes a scan by positions fault.

  Markup is laid out, and path data read, by positions in bytes. From any position between characters a token ends
  behind it and between characters, and so do the arguments of a command if there are any to read
  (`exists_tokenEnd?`, `exists_arguments?`). The whole scans give what those over characters give
  (`positions_never_fault`), and those never fail to give something.
-/

import SvgComponent.Proofs.Jsx.Offsets
import SvgComponent.Proofs.Path.Offsets

namespace SvgComponent.Convert

open Text (IsBoundary byteAt? exists_offset exists_rest isBoundary_offset)

variable {s : String} {i : Nat}

theorem exists_tokenEnd? {b : UInt8} (h : IsBoundary s i) (hb : byteAt? s i = some b) :
    ∃ stop, Jsx.Offsets.tokenEnd? s b i = some stop ∧ i < stop ∧ IsBoundary s stop := by
  obtain ⟨c, r, hr, rfl⟩ := exists_rest h hb
  exact ⟨_, Jsx.Offsets.tokenEnd?_offset hr hb, Jsx.Offsets.offset_lt_scan hr,
    isBoundary_offset (Jsx.Offsets.suffix_scan hr)⟩

theorem exists_arguments? (letter : Char) (h : IsBoundary s i) :
    ∃ got, Path.Offsets.arguments? s letter i = some got ∧ ∀ args stop, got = .ok (args, stop) → IsBoundary s stop := by
  obtain ⟨r, hr, rfl⟩ := exists_offset h
  obtain ⟨hsame, hsuffix⟩ := Path.Offsets.arguments?_lands letter hr
  refine ⟨_, hsame, ?_⟩
  rintro args stop hstop
  cases hwant : Path.arguments s.utf8ByteSize letter r with
  | error f =>
    rw [hwant] at hstop
    cases hstop
  | ok a =>
    rw [hwant] at hstop
    cases hstop
    exact isBoundary_offset (hsuffix _ _ hwant)

/-- No brace is closed that is not open, no text is cut inside a character or beyond its end, and every repetition
    moves on: from each position between characters, and so for the whole text, which is laid out and read as over
    characters. -/
theorem positions_never_fault (s : String) :
    (∀ i b, IsBoundary s i → byteAt? s i = some b →
      ∃ stop, Jsx.Offsets.tokenEnd? s b i = some stop ∧ i < stop ∧ IsBoundary s stop) ∧
    Jsx.Offsets.format? s = some (Jsx.Layout.format s.toList) ∧
    (∀ i letter, IsBoundary s i → ∃ got, Path.Offsets.arguments? s letter i = some got ∧
      ∀ args stop, got = .ok (args, stop) → IsBoundary s stop) ∧
    Path.Offsets.parse? s = some (Path.parse s) :=
  ⟨fun _ _ => exists_tokenEnd?, Jsx.Offsets.format?_eq s, fun _ letter => exists_arguments? letter,
    Path.Offsets.parse?_eq s⟩

end SvgComponent.Convert
