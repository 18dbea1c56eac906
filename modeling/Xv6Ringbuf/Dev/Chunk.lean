import Xv6Ringbuf.Dev.Console

namespace Xv6Ringbuf.Dev

theorem plain_nil : Plain [] := fun _ h => absurd h List.not_mem_nil

variable {c : UInt8} {bytes input : List UInt8} {n : Nat} {stop : Stop}

theorem Plain.cons (hnl : c ≠ NEWLINE) (hmark : c ≠ C 'D') (h : Plain bytes) : Plain (c :: bytes) := by
  intro d hd
  rcases List.mem_cons.mp hd with rfl | hd
  · exact ⟨hnl, hmark⟩
  · exact h d hd

theorem Plain.append {bytes' : List UInt8} (h : Plain bytes) (h' : Plain bytes') :
    Plain (bytes ++ bytes') := by
  intro c hc
  rcases List.mem_append.mp hc with hc | hc
  · exact h c hc
  · exact h' c hc

-- What `chunk` takes of the input for each reason to stop.
structure Chunk (n : Nat) (input : List UInt8) (bytes : List UInt8) (stop : Stop) : Prop where
  within : bytes <+: input
  full : stop = .full → Plain bytes ∧ bytes.length = n
  newline : stop = .newline → ∃ body, bytes = body ++ [NEWLINE] ∧ Plain body ∧ body.length < n
  mark : stop = .mark → Plain bytes ∧ bytes.length < n ∧ input[bytes.length]? = some (C 'D')
  dry : stop = .dry → Plain bytes ∧ bytes.length < n ∧ bytes = input

theorem Chunk.cons (h : Chunk n input bytes stop) (hnl : c ≠ NEWLINE) (hmark : c ≠ C 'D') :
    Chunk (n + 1) (c :: input) (c :: bytes) stop where
  within := (List.prefix_cons_inj c).mpr h.within
  full hstop := by
    obtain ⟨hplain, hlen⟩ := h.full hstop
    exact ⟨hplain.cons hnl hmark, by rw [List.length_cons, hlen]⟩
  newline hstop := by
    obtain ⟨body, hbytes, hplain, hlen⟩ := h.newline hstop
    refine ⟨c :: body, by rw [hbytes, List.cons_append], hplain.cons hnl hmark, ?_⟩
    rw [List.length_cons]
    omega
  mark hstop := by
    obtain ⟨hplain, hlen, hnext⟩ := h.mark hstop
    refine ⟨hplain.cons hnl hmark, ?_, ?_⟩
    · rw [List.length_cons]
      omega
    · rw [List.length_cons, List.getElem?_cons_succ, hnext]
  dry hstop := by
    obtain ⟨hplain, hlen, hbytes⟩ := h.dry hstop
    refine ⟨hplain.cons hnl hmark, ?_, by rw [hbytes]⟩
    rw [List.length_cons]
    omega

theorem chunk_spec (n : Nat) (input : List UInt8) :
    Chunk n input (chunk n input).1 (chunk n input).2 := by
  induction n generalizing input with
  | zero =>
    rw [chunk]
    constructor
    case within => exact List.nil_prefix
    case full => exact fun _ => ⟨plain_nil, rfl⟩
    all_goals intro hstop; cases hstop
  | succ n ih =>
    cases input with
    | nil =>
      rw [chunk]
      constructor
      case within => exact List.nil_prefix
      case dry => exact fun _ => ⟨plain_nil, Nat.succ_pos n, rfl⟩
      all_goals intro hstop; cases hstop
    | cons c input =>
      rw [chunk]
      by_cases hmark : c = C 'D'
      · rw [if_pos hmark]
        constructor
        case within => exact List.nil_prefix
        case mark =>
          intro _
          refine ⟨plain_nil, Nat.succ_pos n, ?_⟩
          rw [List.length_nil, List.getElem?_cons_zero, hmark]
        all_goals intro hstop; cases hstop
      · rw [if_neg hmark]
        by_cases hnl : c = NEWLINE
        · rw [if_pos hnl]
          constructor
          case within => exact ⟨input, rfl⟩
          case newline =>
            intro _
            exact ⟨[], by rw [hnl, List.nil_append], plain_nil, Nat.succ_pos n⟩
          all_goals intro hstop; cases hstop
        · rw [if_neg hnl]
          exact (ih input).cons hnl hmark

theorem Chunk.not_mark (h : Chunk n input bytes stop) : ∀ c ∈ bytes, c ≠ C 'D' := by
  intro c hc
  cases stop with
  | full => exact ((h.full rfl).1 c hc).2
  | mark => exact ((h.mark rfl).1 c hc).2
  | dry => exact ((h.dry rfl).1 c hc).2
  | newline =>
    obtain ⟨body, rfl, hplain, _⟩ := h.newline rfl
    rcases List.mem_append.mp hc with hc | hc
    · exact (hplain c hc).2
    · rw [List.mem_singleton.mp hc]
      decide

theorem Chunk.length_le (h : Chunk n input bytes stop) : bytes.length ≤ n := by
  cases stop with
  | full => exact Nat.le_of_eq (h.full rfl).2
  | mark => exact Nat.le_of_lt (h.mark rfl).2.1
  | dry => exact Nat.le_of_lt (h.dry rfl).2.1
  | newline =>
    obtain ⟨body, rfl, _, hlen⟩ := h.newline rfl
    rw [List.length_append, List.length_singleton]
    exact hlen

theorem Ending.mono {committed committed' : List UInt8} {target stop : Nat} {got : List UInt8}
    (h : Ending committed target stop got) (hmore : committed <+: committed') :
    Ending committed' target stop got := by
  have hkept : ∀ {i : Nat} {c : UInt8}, committed[i]? = some c → committed'[i]? = some c := by
    intro i c hi
    obtain ⟨rest, rfl⟩ := hmore
    rw [List.getElem?_append_left (List.getElem?_eq_some_iff.mp hi).1, hi]
  cases h with
  | length _ hplain hlen => exact .length got hplain hlen
  | newline body hplain hlen => exact .newline body hplain hlen
  | beforeMark _ hplain hsome hlen hmark => exact .beforeMark got hplain hsome hlen (hkept hmark)
  | mark hstop hmark => exact .mark hstop (hkept hmark)

end Xv6Ringbuf.Dev
