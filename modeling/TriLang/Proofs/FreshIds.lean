import TriLang.Proofs.Barrier
import TriLang.Proofs.Numbering

/-!
# Fresh ids

One program may be read behind the other from the same tokens, and reading may go on at a token that
it cannot pass.  No id is handed out again all the same: ids are paid for by tokens that are passed,
so they do not run out, and each program has later ones than the programs before it.
-/

namespace TriLang

namespace Cursor

variable {ts : List Token} {c : Cursor}

theorem leads_afterPrograms (c : Cursor) : ∀ n, c.Leads (c.afterPrograms n)
  | 0 => .refl c
  | n + 1 => (c.leads_afterPrograms n).trans (c.afterPrograms n).program.leads

theorem issued_afterPrograms_mono (c : Cursor) : Monotone fun n => (c.afterPrograms n).issued :=
  monotone_nat_of_le_succ fun n => (c.afterPrograms n).program_issued.1

/-- What is handed out is paid for by the tokens that are passed. -/
theorem issued_afterPrograms_le (ts : List Token) (n : Nat) :
    ((ofTokens ts).afterPrograms n).issued ≤ 2 * ((ofTokens ts).afterPrograms n).index := by
  induction n with
  | zero =>
    obtain ⟨hindex, hissued, -⟩ := ofTokens_start ts
    show (ofTokens ts).issued ≤ 2 * (ofTokens ts).index
    omega
  | succ n ih =>
    have hle := ((ofTokens ts).afterPrograms n).program_issued.2.1
    show ((ofTokens ts).afterPrograms n).program.next.issued ≤
      2 * ((ofTokens ts).afterPrograms n).program.next.index
    omega

end Cursor

namespace Program

/-- However many programs are read one behind the other from fewer than `2 ^ 31` tokens, fewer ids
are handed out than there are, and never the id of no node.  The ids of each program are in source
order, and behind those of the programs before it. -/
theorem ids_fresh {ts : List Token} (h : ts.length < 2 ^ 31) :
    let c n := (Cursor.ofTokens ts).afterPrograms n
    let ids n := (c n).program.node.command.ids
    (∀ n, (c n).issued < NodeId.dummy.toNat ∧ NodeId.dummy ∉ NodeId.first (c n).issued) ∧
      (∀ n, (ids n).Sublist ((NodeId.first (c (n + 1)).issued).drop (c n).issued) ∧
        (ids n).Pairwise (· < ·)) ∧
      ∀ m n, m < n → ∀ i ∈ ids m, ∀ j ∈ ids n, i < j := by
  intro c ids
  have hissued (n : Nat) : (c n).issued < NodeId.dummy.toNat := by
    have hle : (c n).issued ≤ 2 * (c n).index := Cursor.issued_afterPrograms_le ts n
    have hindex : (c n).index ≤ ts.length :=
      ((Cursor.ofTokens ts).leads_afterPrograms n).index_le_length
    show (c n).issued < 2 ^ 32 - 1
    omega
  have hsize (n : Nat) : (c n).issued ≤ UInt32.size :=
    Nat.le_of_lt ((hissued n).trans (by decide))
  have hids (n : Nat) : (ids n).Sublist ((NodeId.first (c (n + 1)).issued).drop (c n).issued) :=
    (c n).program_issued.2.2
  refine ⟨fun n => ⟨hissued n, fun hm => ?_⟩, fun n => ⟨hids n, ?_⟩, fun m n hmn i hi j hj => ?_⟩
  · have hlt := (NodeId.toNat_of_mem_drop_first (m := 0) (hsize n) hm).2
    exact absurd hlt (Nat.lt_asymm (hissued n))
  · have hfirst := NodeId.pairwise_lt_first (hsize (n + 1))
    exact (hfirst.sublist (List.drop_sublist ..)).sublist (hids n)
  · have hi := (NodeId.toNat_of_mem_drop_first (hsize (m + 1)) ((hids m).subset hi)).2
    have hj := (NodeId.toNat_of_mem_drop_first (hsize (n + 1)) ((hids n).subset hj)).1
    have hmono : (c (m + 1)).issued ≤ (c n).issued :=
      (Cursor.ofTokens ts).issued_afterPrograms_mono hmn
    exact UInt32.lt_iff_toNat_lt.2 (by omega)

/-- Three programs, one behind the other.  The id of the second, whose first branch nothing ends, is
in no tree. -/
theorem ids_fresh_openIf :
    let ts := (Tokens.ofSource "a := b if c then nothing let const d ~ 1 in nothing").toList
    let ids n := ((Cursor.ofTokens ts).afterPrograms n).program.node.command.ids
    ts.length < 2 ^ 31 ∧ ids 0 = [0, 1] ∧ ids 1 = [] ∧ ids 2 = [3, 4] ∧
      (∀ n, ((Cursor.ofTokens ts).afterPrograms n).issued < NodeId.dummy.toNat) ∧
      ∀ m n, m < n → ∀ i ∈ ids m, ∀ j ∈ ids n, i < j := by
  intro ts ids
  have h : ts.length < 2 ^ 31 := by decide +kernel
  obtain ⟨hissued, -, hids⟩ := ids_fresh h
  exact ⟨h, by decide +kernel, by decide +kernel, by decide +kernel, fun n => (hissued n).1, hids⟩

end Program

end TriLang
