import ManifestLens.Text.Character
import ManifestLens.Text.Trim

/-!
# Markup

Text for the terminal may hold tags in square brackets, which open and close styles, and names of pictures between
colons. `Markup.plain` gives the text that is left without the tags and with the pictures, and `Markup.escape` protects
a text so that its brackets stay. A closing tag must close something: a text in which it does not cannot be shown.
-/

/-!
## Names of colours

The words by which a style names a colour: a name, six hexadecimal digits, a number of the palette, or three
components.
-/

namespace ManifestLens.ColorName

/-- The colours with a name. -/
def known : List String :=
  ["default", "black", "red", "green", "yellow", "blue", "magenta", "cyan", "white",
   "bright_black", "bright_red", "bright_green", "bright_yellow", "bright_blue",
   "bright_magenta", "bright_cyan", "bright_white", "grey0", "gray0", "navy_blue", "dark_blue",
   "blue3", "blue1", "dark_green", "deep_sky_blue4", "dodger_blue3", "dodger_blue2", "green4",
   "spring_green4", "turquoise4", "deep_sky_blue3", "dodger_blue1", "green3", "spring_green3",
   "dark_cyan", "light_sea_green", "deep_sky_blue2", "deep_sky_blue1", "spring_green2", "cyan3",
   "dark_turquoise", "turquoise2", "green1", "spring_green1", "medium_spring_green", "cyan2",
   "cyan1", "dark_red", "deep_pink4", "purple4", "purple3", "blue_violet", "orange4", "grey37",
   "gray37", "medium_purple4", "slate_blue3", "royal_blue1", "chartreuse4", "dark_sea_green4",
   "pale_turquoise4", "steel_blue", "steel_blue3", "cornflower_blue", "chartreuse3",
   "cadet_blue", "sky_blue3", "steel_blue1", "pale_green3", "sea_green3", "aquamarine3",
   "medium_turquoise", "chartreuse2", "sea_green2", "sea_green1", "aquamarine1",
   "dark_slate_gray2", "dark_magenta", "dark_violet", "purple", "light_pink4", "plum4",
   "medium_purple3", "slate_blue1", "yellow4", "wheat4", "grey53", "gray53",
   "light_slate_grey", "light_slate_gray", "medium_purple", "light_slate_blue",
   "dark_olive_green3", "dark_sea_green", "light_sky_blue3", "sky_blue2", "dark_sea_green3",
   "dark_slate_gray3", "sky_blue1", "chartreuse1", "light_green", "pale_green1",
   "dark_slate_gray1", "red3", "medium_violet_red", "magenta3", "dark_orange3", "indian_red",
   "hot_pink3", "medium_orchid3", "medium_orchid", "medium_purple2", "dark_goldenrod",
   "light_salmon3", "rosy_brown", "grey63", "gray63", "medium_purple1", "gold3", "dark_khaki",
   "navajo_white3", "grey69", "gray69", "light_steel_blue3", "light_steel_blue", "yellow3",
   "dark_sea_green2", "light_cyan3", "light_sky_blue1", "green_yellow", "dark_olive_green2",
   "dark_sea_green1", "pale_turquoise1", "deep_pink3", "magenta2", "hot_pink2", "orchid",
   "medium_orchid1", "orange3", "light_pink3", "pink3", "plum3", "violet", "light_goldenrod3",
   "tan", "misty_rose3", "thistle3", "plum2", "khaki3", "light_goldenrod2", "light_yellow3",
   "grey84", "gray84", "light_steel_blue1", "yellow2", "dark_olive_green1", "honeydew2",
   "light_cyan1", "red1", "deep_pink2", "deep_pink1", "magenta1", "orange_red1", "indian_red1",
   "hot_pink", "dark_orange", "salmon1", "light_coral", "pale_violet_red1", "orchid2",
   "orchid1", "orange1", "sandy_brown", "light_salmon1", "light_pink1", "pink1", "plum1",
   "gold1", "navajo_white1", "misty_rose1", "thistle1", "yellow1", "light_goldenrod1", "khaki1",
   "wheat1", "cornsilk1", "grey100", "gray100", "grey3", "gray3", "grey7", "gray7", "grey11",
   "gray11", "grey15", "gray15", "grey19", "gray19", "grey23", "gray23", "grey27", "gray27",
   "grey30", "gray30", "grey35", "gray35", "grey39", "gray39", "grey42", "gray42", "grey46",
   "gray46", "grey50", "gray50", "grey54", "gray54", "grey58", "gray58", "grey62", "gray62",
   "grey66", "gray66", "grey70", "gray70", "grey74", "gray74", "grey78", "gray78", "grey82",
   "gray82", "grey85", "gray85", "grey89", "gray89", "grey93", "gray93"]

/-- The number that ASCII digits write. -/
def number (digits : List Char) : Nat :=
  digits.foldl (fun n c => n * 10 + (c.toNat - '0'.toNat)) 0

/-- Digits that write a component of a colour. -/
def isComponent (digits : List Char) : Bool :=
  !digits.isEmpty && digits.all Text.isAsciiDigit && number digits ≤ 255

/-- What stands between a word and a final bracket. -/
def arguments? (word : String) (text : List Char) : Option (List Char) :=
  let opening := word.toList ++ ['(']
  if opening.isPrefixOf text && text.getLast? == some ')' then
    some ((text.drop opening.length).dropLast)
  else none

/-- A hexadecimal digit, in lower case. -/
def isHexDigit (c : Char) : Bool := Text.isAsciiDigit c || ('a' ≤ c && c ≤ 'f')

/-- A word in lower case names a colour. -/
def isColor (text : List Char) : Bool :=
  known.contains (String.ofList text) ||
    (match text with
      | '#' :: digits => digits.length == 6 && digits.all isHexDigit
      | _ => false) ||
    (arguments? "color" text).any (fun digits => digits.length ≤ 3 && isComponent digits) ||
    (arguments? "rgb" text).any fun components =>
      let parts := (Text.splitOn ',' components).map Text.trim
      parts.length == 3 && parts.all isComponent

end ManifestLens.ColorName

/-! ## Tags -/

namespace ManifestLens

/-- Why a text with markup cannot be shown. -/
inductive MarkupFault where
  /-- A closing tag without an open tag of its name. -/
  | notOpen (name : List Char)
  /-- A closing tag without a name where nothing is open. -/
  | nothingOpen
deriving DecidableEq, Repr

namespace Markup

/-! ### Names of styles -/

/-- The attributes of a style in their order, each with the words for it. -/
def attributeWords : List (String × List String) :=
  [("bold", ["bold", "b"]), ("dim", ["dim", "d"]), ("italic", ["italic", "i"]),
    ("underline", ["underline", "u"]), ("blink", ["blink"]), ("blink2", ["blink2"]),
    ("reverse", ["reverse", "r"]), ("conceal", ["conceal", "c"]), ("strike", ["strike", "s"]),
    ("underline2", ["underline2", "uu"]), ("frame", ["frame"]), ("encircle", ["encircle"]),
    ("overline", ["overline", "o"])]

def attribute? (word : List Char) : Option String :=
  (attributeWords.find? (·.2.contains (String.ofList word))).map (·.1)

/-- What the words of a style set. -/
structure StyleWords where
  /-- The attributes that are switched on or off. -/
  attributes : List (String × Bool) := []
  color : Option (List Char) := none
  background : Option (List Char) := none
  link : Option (List Char) := none

namespace StyleWords

/-- Reads one word after another; nothing if one of them has no meaning. -/
def read? (style : StyleWords) : List (List Char) → Option StyleWords
  | [] => some style
  | word :: rest =>
      let lower := Text.lower word
      let switched (name : String) (isOn : Bool) : StyleWords :=
        { style with attributes := style.attributes.filter (·.1 != name) ++ [(name, isOn)] }
      if lower = "on".toList then
        match rest with
        | [] => none
        | color :: rest =>
            let color := Text.lower color
            if ColorName.isColor color then read? { style with background := some color } rest
            else none
      else if lower = "not".toList then
        match rest with
        | [] => none
        | word :: rest => (attribute? word).bind fun name => read? (switched name false) rest
      else if lower = "link".toList then
        match rest with
        | [] => none
        | link :: rest => read? { style with link := some link } rest
      else
        match attribute? lower with
        | some name => read? (switched name true) rest
        | none =>
            if ColorName.isColor lower then read? { style with color := some lower } rest else none

/-- The style in its normal form. -/
def text (style : StyleWords) : List Char :=
  let attributes := attributeWords.filterMap fun (name, _) =>
    (style.attributes.find? (·.1 == name)).map fun (_, isOn) =>
      if isOn then name.toList else "not ".toList ++ name.toList
  let words := attributes ++ style.color.toList ++
    (style.background.map ("on ".toList ++ ·)).toList ++ (style.link.map ("link ".toList ++ ·)).toList
  if words.isEmpty then "none".toList else Text.joinWith [' '] words

end StyleWords

def words (text : List Char) : List (List Char) :=
  (text.splitBy fun a b => Text.isBlank a == Text.isBlank b).filter fun run =>
    !(run.head?.any Text.isBlank)

/-- The form in which the name of a tag is compared. -/
def normalName (name : List Char) : List Char :=
  if Text.trim name = "none".toList then "none".toList
  else
    match ({} : StyleWords).read? (words name) with
    | some style => style.text
    | none => Text.lower (Text.trim name)

/-! ### Tags -/

/-- A part of a text with markup. -/
inductive Piece where
  | text (text : List Char)
  | tag (tag : List Char)
deriving DecidableEq, Repr

/-- A character with which a tag begins. -/
def startsTag (c : Char) : Bool := ('a' ≤ c && c ≤ 'z') || c == '#' || c == '/' || c == '@'

/-- The tag at the start of a text, without its brackets, and what follows it. -/
def tagAt? : List Char → Option (List Char × List Char)
  | '[' :: c :: rest =>
      if startsTag c then
        match rest.span fun x => x != '[' && x != ']' with
        | (body, ']' :: after) => some (c :: body, after)
        | _ => none
      else none
  | _ => none

/-- The tag at the start of a text with the number of backslashes before it, and what follows it. -/
def slashedTagAt? (text : List Char) : Option (Nat × List Char × List Char) :=
  let slashes := (text.takeWhile (· == '\\')).length
  (tagAt? (text.drop slashes)).map fun (tag, after) => (slashes, tag, after)

/-- The parts of a text, of which at most `fuel` characters and tags are looked at, with the text `run` read since
the last tag. Two backslashes before a tag stand for one, and a single one before a bracket keeps it as text. -/
def pieces : Nat → List Char → List Char → List Piece
  | 0, run, text => [.text (run ++ text)]
  | _, run, [] => [.text run]
  | fuel + 1, run, c :: rest =>
      match slashedTagAt? (c :: rest) with
      | some (slashes, tag, after) =>
          .text run :: .text (List.replicate (slashes / 2) '\\') ::
            (if slashes % 2 = 1 then .text ('[' :: tag ++ [']']) else .tag tag) ::
            pieces fuel [] after
      | none =>
          if c = '\\' ∧ rest.head? = some '[' then pieces fuel run rest
          else pieces fuel (run ++ [c]) rest

/-! ### Pictures -/

/-- The words after a name that choose between forms of its picture, with the character that does so. -/
def pictureForms : List (String × Char) := [("-emoji", '\ufe0f'), ("-text", '\ufe0e')]

/-- The picture for what stands between two colons, if a table of pictures by their names in lower case has it. -/
def picture? (pictures : List (String × String)) (code : List Char) : Option (List Char) :=
  let form := pictureForms.find? fun form => form.1.toList.isSuffixOf code
  let name := code.take (code.length - (form.map (·.1.length)).getD 0)
  (pictures.find? (·.1.toList == Text.lower name)).map fun picture =>
    picture.2.toList ++ (form.map (·.2)).toList

/-- The text with pictures in place of their names, where at most `fuel` places are looked at. -/
def drawn (pictures : List (String × String)) : Nat → List Char → List Char
  | 0, text => text
  | _, [] => []
  | fuel + 1, c :: rest =>
      if c = ':' then
        match rest.span fun x => x != ':' && !Text.isBlank x with
        | (code, ':' :: after) =>
            (picture? pictures code).getD (':' :: code ++ [':']) ++ drawn pictures fuel after
        | _ => c :: drawn pictures fuel rest
      else c :: drawn pictures fuel rest

/-! ### Text without markup -/

/-- The names of the tags that are open after a tag, the last one first. -/
def openAfter (names : List (List Char)) (tag : List Char) : Except MarkupFault (List (List Char)) :=
  let name := tag.takeWhile (· != '=')
  match name with
  | '/' :: name =>
      if Text.trim name = [] then
        match names with
        | [] => .error .nothingOpen
        | _ :: names => .ok names
      else
        let name := normalName (Text.trim name)
        if names.contains name then .ok (names.erase name) else .error (.notOpen name)
  | name => .ok (normalName name :: names)

/-- The text of the pieces that follow open tags. -/
def textOf (pictures : List (String × String)) (names : List (List Char)) :
    List Piece → Except MarkupFault (List Char)
  | [] => .ok []
  | .text text :: rest => (textOf pictures names rest).map (drawn pictures text.length text ++ ·)
  | .tag tag :: rest =>
      match openAfter names tag with
      | .ok names => textOf pictures names rest
      | .error fault => .error fault

/-- A control character that a terminal would act on. -/
def isControl (c : Char) : Bool := [7, 8, 11, 12, 13].contains c.toNat

/-- The text without its tags and without controls, and with pictures for their names. -/
def plain (pictures : List (String × String)) (text : List Char) : Except MarkupFault (List Char) :=
  (textOf pictures [] (pieces text.length [] text)).map (·.filter (!isControl ·))

/-! ### Escaping -/

/-- The text with every tag escaped, where at most `fuel` places are looked at. -/
def escapeTags : Nat → List Char → List Char
  | 0, text => text
  | _, [] => []
  | fuel + 1, c :: rest =>
      match slashedTagAt? (c :: rest) with
      | some (slashes, tag, after) =>
          List.replicate (2 * slashes + 1) '\\' ++ '[' :: tag ++ ']' :: escapeTags fuel after
      | none => c :: escapeTags fuel rest

/-- The text as markup that shows its tags. A single backslash at the end is doubled. -/
def escape (text : List Char) : List Char :=
  let escaped := escapeTags text.length text
  if (escaped.reverse.takeWhile (· == '\\')).length = 1 then escaped ++ ['\\'] else escaped

end Markup

/-! ### Colour

Whether output is coloured. Two variables of the environment, if set to anything, turn colours off; otherwise
they are on for a terminal. -/

namespace Color

/-- A variable is set to a text that is not empty. -/
def isSet (environment : List (String × String)) (name : String) : Bool :=
  (environment.find? (·.1 == name)).any (·.2 != "")

/-- The variable by which a user turns colours off. -/
def optOut : String := "NO_COLOR"

/-- Output to a stream is coloured. -/
def isUsed (environment : List (String × String)) (isTerminal : Bool) : Bool :=
  !isSet environment optOut && !isSet environment "CI" && isTerminal

/-- The colours of the labels of version changes. -/
def labelColors : List (String × String) :=
  [("major", "red"), ("minor", "yellow"), ("patch", "green"), ("new", "cyan"),
    ("downgrade", "red"), ("update", "yellow")]

/-- A label, in any case of letters, with markup for its colour. -/
def markLabel (label : String) : String :=
  match labelColors.find? (·.1.toList == Text.lower label.toList) with
  | some (_, color) => "[" ++ color ++ "]" ++ label ++ "[/" ++ color ++ "]"
  | none => label

end Color

end ManifestLens
