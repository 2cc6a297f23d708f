import StudyDoc.Lib.CString
import StudyDoc.Net.Writen

/-!
# `home_page.c`: the request for the home page

The request is printed into `char line[MAXLINE]`, and `write` is called with the result of
`snprintf`, which is the length of the whole text.

    exactly the request or nothing is sent, and no byte that was not stored ↔
      the name has at most 237 characters and all or none of the bytes are taken,
      or it has 238 and none is                                              (home_page_exact_iff)
-/

namespace StudyDoc.HomePage

open CString Writen

/-! ## Algorithm -/

def MAXLINE : Nat := 255

/-- The text of `GET_CMD`. -/
def request (fname : List Char) : List Char :=
  "GET ".toList ++ (fname ++ " HTTP/1.0\r\n\r\n".toList)

/-- `line`, and what lies behind the bytes that `snprintf` stored. -/
def memory (line : List Char) (behind : Nat → Char) (i : Nat) : Char := line.getD i (behind i)

/-- An `int` as `size_t`, of 64 bits. -/
def toSize (n : Int) : Nat := (n % 18446744073709551616).toNat

structure Outcome where
  /-- The third argument of `write`. -/
  length : Nat
  sent : List Char
  printed : List Int
  closed : Bool

/-- `for (;;)`: what is printed, and whether the loop is left. -/
def readLoop : List (Read MAXLINE) → List Int × Bool
  | [] => ([], false)
  | r :: rs => if r.ret = 0 then ([], true) else (r.ret :: (readLoop rs).1, (readLoop rs).2)

def home_page (fname : List Char) (behind : Nat → Char) (write : Answer)
    (rs : List (Read MAXLINE)) : Outcome :=
  let line := snprintf MAXLINE (request fname)
  let n := toSize (printed (request fname))
  { length := n
    sent := (List.range (write n).taken).map (memory line behind)
    printed := (readLoop rs).1
    closed := (readLoop rs).2 }

/-- The request or nothing, and only bytes that were stored. -/
def Exact (fname : List Char) (o : Outcome) : Prop :=
  (o.sent = request fname ∨ o.sent = []) ∧
    o.length ≤ (snprintf MAXLINE (request fname)).length

/-! ## Lemmas -/

theorem length_request (fname : List Char) : (request fname).length = fname.length + 17 := by
  have hget : "GET ".toList.length = 4 := by decide
  have hhttp : " HTTP/1.0\r\n\r\n".toList.length = 13 := by decide
  unfold request
  rw [List.length_append, List.length_append, hget, hhttp]
  omega

theorem toSize_printed {text : List Char} (h : text.length ≤ INT_MAX) :
    toSize (printed text) = text.length := by
  have hmax : INT_MAX = 2147483647 := rfl
  unfold toSize printed
  rw [if_pos h]
  omega

theorem lt_toSize_printed {text : List Char} (h : INT_MAX < text.length) :
    INT_MAX < toSize (printed text) := by
  unfold toSize printed
  rw [if_neg (Nat.not_le.mpr h)]
  decide

theorem getLast?_request (fname : List Char) : (request fname).getLast? = some '\n' := by
  unfold request
  rw [List.getLast?_append, List.getLast?_append]
  rfl

/-- From the bytes that were stored the first ones are sent. -/
theorem sent_stored {line : List Char} {k : Nat} (hk : k ≤ line.length) (behind : Nat → Char) :
    (List.range k).map (memory line behind) = line.take k := by
  refine List.ext_getElem (by simp [hk]) fun i hi hi' => ?_
  have hlt : i < line.length := by
    rw [List.length_take] at hi'
    omega
  rw [List.getElem_map, List.getElem_range, List.getElem_take, memory,
    List.getD_eq_getElem?_getD, List.getElem?_eq_getElem hlt, Option.getD_some]

variable {fname : List Char} {behind : Nat → Char} {write : Answer} {rs : List (Read MAXLINE)}

theorem toSize_request (h : fname.length ≤ 238) :
    toSize (printed (request fname)) = fname.length + 17 := by
  have hreq := length_request fname
  have hmax : INT_MAX = 2147483647 := rfl
  rw [toSize_printed (by omega), hreq]

theorem length_home_page (h : fname.length ≤ 238) :
    (home_page fname behind write rs).length = fname.length + 17 :=
  toSize_request h

theorem sent_home_page (h : fname.length ≤ 238) :
    (home_page fname behind write rs).sent =
      (List.range (write (fname.length + 17)).taken).map
        (memory (snprintf MAXLINE (request fname)) behind) := by
  show (List.range ((fun n => (write n).taken) (toSize (printed (request fname))))).map _ = _
  rw [toSize_request h]

theorem exact_short (h : fname.length ≤ 237) :
    Exact fname (home_page fname behind write rs) ↔
      (write (fname.length + 17)).taken = 0 ∨
        (write (fname.length + 17)).taken = fname.length + 17 := by
  have hle := (write (fname.length + 17)).taken_le
  have hreq := length_request fname
  have hlen : (request fname).length < MAXLINE := by
    show (request fname).length < 255
    omega
  unfold Exact
  rw [length_home_page (by omega), sent_home_page (by omega), snprintf_of_length_lt hlen,
    sent_stored (by rw [List.length_append]; omega), List.take_append_of_le_length (by omega),
    List.take_eq_self_iff, List.take_eq_nil_iff, List.length_append, List.length_singleton,
    ← List.length_eq_zero_iff]
  omega

/-- The NUL has the place of the last character. -/
theorem exact_full (h : fname.length = 238) :
    Exact fname (home_page fname behind write rs) ↔ (write (fname.length + 17)).taken = 0 := by
  have hreq := length_request fname
  have hlen : (snprintf MAXLINE (request fname)).length = 255 := by
    rw [length_snprintf, hreq, h]
    rfl
  have hlast : memory (snprintf MAXLINE (request fname)) behind 254 = NUL := by
    have htake : ((request fname).take 254).length = 254 := by
      rw [List.length_take]
      omega
    show ((request fname).take 254 ++ [NUL]).getD 254 (behind 254) = NUL
    rw [List.getD_eq_getElem?_getD, List.getElem?_append_right (by omega), htake]
    rfl
  unfold Exact
  rw [length_home_page (by omega), sent_home_page (by omega), hlen]
  constructor
  · rintro ⟨hsent | hsent, -⟩
    · have htaken := congrArg List.length hsent
      have hend := congrArg List.getLast? hsent
      rw [List.length_map, List.length_range, hreq] at htaken
      have hall : (write (fname.length + 17)).taken = 254 + 1 := by omega
      rw [hall, List.range_succ, List.map_append, List.map_singleton, hlast,
        List.getLast?_concat, getLast?_request] at hend
      exact absurd (Option.some.inj hend) (by decide)
    · have htaken := congrArg List.length hsent
      rwa [List.length_map, List.length_range, List.length_nil] at htaken
  · intro htaken
    rw [htaken]
    exact ⟨Or.inr rfl, by omega⟩

theorem not_exact_long (h : 239 ≤ fname.length) :
    ¬ Exact fname (home_page fname behind write rs) := by
  rintro ⟨-, hle⟩
  have hreq := length_request fname
  have hstored : (snprintf MAXLINE (request fname)).length ≤ 255 := by
    rw [length_snprintf]
    exact Nat.min_le_right _ _
  have hlength : (home_page fname behind write rs).length = toSize (printed (request fname)) := rfl
  have hmax : INT_MAX = 2147483647 := rfl
  rcases Nat.lt_or_ge INT_MAX (request fname).length with hlt | hge
  · have hbig := lt_toSize_printed hlt
    omega
  · rw [hlength, toSize_printed hge] at hle
    omega

/-! ## Main result -/

theorem home_page_exact_iff (fname : List Char) (behind : Nat → Char) (write : Answer)
    (rs : List (Read MAXLINE)) :
    Exact fname (home_page fname behind write rs) ↔
      (fname.length ≤ 237 ∧ ((write (fname.length + 17)).taken = 0 ∨
        (write (fname.length + 17)).taken = fname.length + 17)) ∨
      (fname.length = 238 ∧ (write (fname.length + 17)).taken = 0) := by
  obtain h | h | h : fname.length ≤ 237 ∨ fname.length = 238 ∨ 239 ≤ fname.length := by omega
  · rw [exact_short h]
    omega
  · rw [exact_full h]
    omega
  · constructor
    · exact fun hex => absurd hex (not_exact_long h)
    · omega

/-- A name of 238 characters, and all bytes are taken. -/
theorem home_page_not_exact :
    ¬ Exact (List.replicate 238 'a')
      (home_page (List.replicate 238 'a') (fun _ => NUL) (fun n => .accepted n (Nat.le_refl n))
        []) := by
  rw [exact_full List.length_replicate]
  show ¬ (List.replicate 238 'a').length + 17 = 0
  omega

end StudyDoc.HomePage
