import ElmScope.Proofs.Text.Boundaries
import ElmScope.Proofs.Text.EditorPlaces
import ElmScope.Proofs.Text.Octets
/-!
# What an edit replaces

The offset of a position cuts the text between two characters, so it cuts the octets of the text at
that place as well. An edit of a range takes out the octets between the offsets of its two ends and
puts those of the new text there. Since later positions have no earlier offsets, no range is refused
that starts before it ends and has both of its lines in the text.

* `exists_cut_of_offsetOf?` — offsets of positions are cuts
* `edit?_of_offsets` — the octets after an edit
* `edit?_replaces` — edits between boundaries, and edits of any range in order
-/
namespace ElmScope
namespace Text

variable {t a b new : Text} {r : Range} {p : Position} {n k : Nat}

/-! ## Cuts of a text and of its octets -/

/-- The offset of a position cuts the text between two characters. -/
theorem exists_cut_of_offsetOf? (h : t.offsetOf? p = some n) :
    ∃ a b, a ++ b = t ∧ byteLength a = n := by
  obtain ⟨line, hline, rfl⟩ := Option.map_eq_some_iff.1 h
  obtain ⟨z, hz⟩ := isPrefix_trimBreak line
  rw [columnOf]
  generalize (trimBreak line).indexAt unitSize
    (min p.character.toNat (trimBreak line).unitLength) = i
  generalize p.line.toNat = l at hline ⊢
  refine ⟨(t.lines.take l).flatten ++ (trimBreak line).take i,
    (trimBreak line).drop i ++ z ++ (t.lines.drop (l + 1)).flatten, ?_, ?_⟩
  · have hlines : t.lines = t.lines.take l ++ line :: t.lines.drop (l + 1) := by
      obtain ⟨hlt, hget⟩ := List.getElem?_eq_some_iff.1 hline
      rw [← hget, List.getElem_cons_drop, List.take_append_drop]
    have hbody : (trimBreak line).take i ++ ((trimBreak line).drop i ++ z) = line := by
      rw [← List.append_assoc, List.take_append_drop, hz]
    calc (t.lines.take l).flatten ++ (trimBreak line).take i ++
          ((trimBreak line).drop i ++ z ++ (t.lines.drop (l + 1)).flatten)
        = (t.lines.take l).flatten ++ ((trimBreak line).take i ++
            ((trimBreak line).drop i ++ z) ++ (t.lines.drop (l + 1)).flatten) := by
          simp only [List.append_assoc]
      _ = (t.lines.take l ++ line :: t.lines.drop (l + 1)).flatten := by
          rw [hbody, List.flatten_append, List.flatten_cons]
      _ = t := by
          rw [← hlines]
          exact flatten_linesBy isLineBreak t
  · rw [byteLength_append]
    rfl

theorem take_encode (h : a ++ b = t) : t.encode.take (byteLength a) = a.encode := by
  rw [← h, encode_append, ← length_encode, List.take_left]

theorem drop_encode (h : a ++ b = t) : t.encode.drop (byteLength a) = b.encode := by
  rw [← h, encode_append, ← length_encode, List.drop_left]

/-! ## Edits -/

/-- An edit replaces the octets between the offsets of its range. -/
theorem edit?_of_offsets (hstart : t.offsetOf? r.start = some n) (hstop : t.offsetOf? r.stop = some k)
    (hle : n ≤ k) : ∃ u, t.edit? ⟨some r, new⟩ = some u ∧
      u.encode = t.encode.take n ++ new.encode ++ t.encode.drop k := by
  have hedit : t.edit? ⟨some r, new⟩ = some (t.splice n k new) := by
    simp [edit?, offsetsOf?, hstart, hstop, hle]
  refine ⟨_, hedit, ?_⟩
  obtain ⟨a, b, hab, rfl⟩ := exists_cut_of_offsetOf? hstart
  obtain ⟨a', b', hab', rfl⟩ := exists_cut_of_offsetOf? hstop
  rw [splice_of_cuts hab hab', encode_append, encode_append, take_encode hab,
    drop_encode hab']

/-- **Edits at reported positions replace exactly the selected bytes.** An edit whose range was
reported for two boundaries of a text is never refused and replaces the octets between the two, if
32 bits hold the line and the code units of each, as they do in the first four gigabytes. An edit
of any range that does not end before it starts and whose lines are lines of the text is not
refused either, and leaves what stands before the one offset and after the other as it was. -/
theorem edit?_replaces (t new : Text) :
    (∀ m n, t.IsBoundary m → t.IsBoundary n → t.Addressable m → t.Addressable n → m ≤ n →
      ∃ u, t.edit? ⟨some ⟨t.positionOf m, t.positionOf n⟩, new⟩ = some u ∧
        u.encode = t.encode.take m ++ new.encode ++ t.encode.drop n) ∧
    (∀ o, min o t.byteLength < UInt32.size → t.Addressable o) ∧
    (∀ r : Range, r.start ≤ r.stop → r.start.line.toNat < t.lines.length →
      r.stop.line.toNat < t.lines.length →
      ∃ m n u, t.offsetOf? r.start = some m ∧ t.offsetOf? r.stop = some n ∧ m ≤ n ∧
        t.edit? ⟨some r, new⟩ = some u ∧
          u.encode = t.encode.take m ++ new.encode ++ t.encode.drop n) := by
  refine ⟨fun m n hm hn hm' hn' hle => ?_, fun o => addressable_of_lt,
    fun r hr hstart hstop => ?_⟩
  · exact edit?_of_offsets (hm.offsetOf?_positionOf hm') (hn.offsetOf?_positionOf hn') hle
  · obtain ⟨m, hm⟩ := exists_offsetAt? hstart r.start.character.toNat
    obtain ⟨n, hn⟩ := exists_offsetAt? hstop r.stop.character.toNat
    have hle := offsetOf?_mono hr hm hn
    obtain ⟨u, hu, hoctets⟩ := edit?_of_offsets hm hn hle
    exact ⟨m, n, u, hm, hn, hle, hu, hoctets⟩

/-- Both bytes of `é` are replaced, in a line that starts after a carriage return and a line feed;
and a range that starts past the end of the first line and ends inside the surrogate pair in the
second takes out the line break and the `é`. -/
theorem edit?_replaces_accent :
    let t : Text := ['a', '\r', '\n', 'é', '😀']
    (∃ u, t.edit? ⟨some ⟨t.positionOf 3, t.positionOf 5⟩, ['e']⟩ = some u ∧
      u.encode = t.encode.take 3 ++ encode ['e'] ++ t.encode.drop 5) ∧
    ∃ m n u, t.offsetOf? ⟨0, 7⟩ = some m ∧ t.offsetOf? ⟨1, 2⟩ = some n ∧ m ≤ n ∧
      t.edit? ⟨some ⟨⟨0, 7⟩, ⟨1, 2⟩⟩, ['e']⟩ = some u ∧
        u.encode = t.encode.take m ++ encode ['e'] ++ t.encode.drop n := by
  intro t
  obtain ⟨hbetween, haddr, hrange⟩ := edit?_replaces t ['e']
  have hthree : t.IsBoundary 3 := ⟨['a', '\r', '\n'], ['é', '😀'], rfl, by decide, by decide⟩
  have hfive : t.IsBoundary 5 := ⟨['a', '\r', '\n', 'é'], ['😀'], rfl, by decide, by decide⟩
  exact ⟨hbetween 3 5 hthree hfive (haddr 3 (by decide)) (haddr 5 (by decide)) (by decide),
    hrange ⟨⟨0, 7⟩, ⟨1, 2⟩⟩ (.inl (by decide)) (by decide) (by decide)⟩

end Text
end ElmScope
