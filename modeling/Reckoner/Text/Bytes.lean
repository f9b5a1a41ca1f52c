/-! Texts as lists of characters, addressed by the byte offsets of their UTF-8 form. Cutting a text
never makes it longer, and cutting anything off the front of a nonempty text makes it shorter. -/
namespace Reckoner

abbrev Text := List Char

namespace Text

def byteLength : Text → Nat
  | [] => 0
  | c :: t => c.utf8Size + byteLength t

/-- What follows the first `n` bytes; a character that the cut falls into is dropped. -/
def dropBytes : Nat → Text → Text
  | 0, t => t
  | _ + 1, [] => []
  | n + 1, c :: t => dropBytes (n + 1 - c.utf8Size) t

/-- The first `n` bytes; a character that the cut falls into is kept. -/
def takeBytes : Nat → Text → Text
  | 0, _ => []
  | _ + 1, [] => []
  | n + 1, c :: t => c :: takeBytes (n + 1 - c.utf8Size) t

def slice (t : Text) (start stop : Nat) : Text :=
  takeBytes (stop - start) (dropBytes start t)

@[simp] theorem byteLength_nil : byteLength [] = 0 := rfl

@[simp] theorem byteLength_cons (c : Char) (t : Text) :
    byteLength (c :: t) = c.utf8Size + byteLength t := rfl

@[simp] theorem byteLength_append (s t : Text) : byteLength (s ++ t) = byteLength s + byteLength t := by
  induction s with
  | nil => simp
  | cons c s ih => simp [ih, Nat.add_assoc]

theorem length_takeBytes_le (n : Nat) (t : Text) : (takeBytes n t).length ≤ t.length := by
  fun_induction takeBytes n t with
  | case1 => simp
  | case2 => simp
  | case3 _ _ _ ih => simpa using ih

theorem length_dropBytes_le (n : Nat) (t : Text) : (dropBytes n t).length ≤ t.length := by
  fun_induction dropBytes n t with
  | case1 => simp
  | case2 => simp
  | case3 _ _ _ ih => simp only [List.length_cons]; omega

theorem length_dropBytes_lt {n : Nat} {t : Text} (hn : 0 < n) (ht : t ≠ []) :
    (dropBytes n t).length < t.length := by
  match n, t, ht with
  | n + 1, c :: t, _ =>
    have := length_dropBytes_le (n + 1 - c.utf8Size) t
    simp only [dropBytes, List.length_cons]
    omega

theorem length_slice_le (t : Text) (start stop : Nat) : (slice t start stop).length ≤ t.length :=
  Nat.le_trans (length_takeBytes_le _ _) (length_dropBytes_le _ _)

/-- A piece that leaves out the first byte is shorter than the text. -/
theorem length_slice_lt {t : Text} {start : Nat} (stop : Nat) (hs : 0 < start) (ht : t ≠ []) :
    (slice t start stop).length < t.length :=
  Nat.lt_of_le_of_lt (length_takeBytes_le _ _) (length_dropBytes_lt hs ht)

/-- The pieces between the occurrences of `separator`; there is always at least one. -/
def pieces (separator : Char) : Text → List Text
  | [] => [[]]
  | c :: t =>
    if c = separator then [] :: pieces separator t
    else match pieces separator t with
      | [] => [[c]]
      | piece :: rest => (c :: piece) :: rest

def cut (sought : Char → Bool) : Text → Option (Text × Text)
  | [] => none
  | c :: t =>
    if sought c then some ([], t)
    else (cut sought t).map fun (before, after) => (c :: before, after)

def stripLast (last : Char) (t : Text) : Option Text :=
  if t.getLast? = some last then some t.dropLast else none

def ofNat (n : Nat) : Text := Nat.toDigits 10 n

def ofInt (n : Int) : Text :=
  if n < 0 then '-' :: ofNat n.natAbs else ofNat n.natAbs

def join (separator : Text) (parts : List Text) : Text := separator.intercalate parts

end Text
end Reckoner
