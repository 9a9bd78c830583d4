import TreeDelta.Text.Quoted
/-!
# Names of characters

`charName?` gives the name of a character in capital letters. It knows the ideographs and the
Hangul syllables, whose names follow from their codes, and lists of other characters: the
Latin, Greek and Cyrillic letters of the European languages, kana, punctuation, currencies,
arrows and faces.
-/

namespace TreeDelta.Text

/-- A run of characters whose names begin alike: the first code, the step to the next one, the
beginning of the names, and what follows it in each. An empty entry is a gap. -/
structure NameRun where
  first : Nat
  step : Nat
  start : String
  rests : List String
deriving Repr

namespace NameRun

/-- The letters with accents of the western languages. -/
def accented : List String :=
  ["A WITH GRAVE", "A WITH ACUTE", "A WITH CIRCUMFLEX", "A WITH TILDE", "A WITH DIAERESIS",
   "A WITH RING ABOVE", "AE", "C WITH CEDILLA", "E WITH GRAVE", "E WITH ACUTE",
   "E WITH CIRCUMFLEX", "E WITH DIAERESIS", "I WITH GRAVE", "I WITH ACUTE", "I WITH CIRCUMFLEX",
   "I WITH DIAERESIS", "ETH", "N WITH TILDE", "O WITH GRAVE", "O WITH ACUTE", "O WITH CIRCUMFLEX",
   "O WITH TILDE", "O WITH DIAERESIS", "", "O WITH STROKE", "U WITH GRAVE", "U WITH ACUTE",
   "U WITH CIRCUMFLEX", "U WITH DIAERESIS", "Y WITH ACUTE", "THORN"]

/-- More letters with accents, A to I. -/
def extended : List String :=
  ["A WITH MACRON", "A WITH BREVE", "A WITH OGONEK", "C WITH ACUTE", "C WITH CIRCUMFLEX",
   "C WITH DOT ABOVE", "C WITH CARON", "D WITH CARON", "D WITH STROKE", "E WITH MACRON",
   "E WITH BREVE", "E WITH DOT ABOVE", "E WITH OGONEK", "E WITH CARON", "G WITH CIRCUMFLEX",
   "G WITH BREVE", "G WITH DOT ABOVE", "G WITH CEDILLA", "H WITH CIRCUMFLEX", "H WITH STROKE",
   "I WITH TILDE", "I WITH MACRON", "I WITH BREVE", "I WITH OGONEK"]

/-- The same, L to N. -/
def extendedL : List String :=
  ["L WITH ACUTE", "L WITH CEDILLA", "L WITH CARON", "L WITH MIDDLE DOT", "L WITH STROKE",
   "N WITH ACUTE", "N WITH CEDILLA", "N WITH CARON"]

/-- The same, R to Y. -/
def extendedR : List String :=
  ["R WITH ACUTE", "R WITH CEDILLA", "R WITH CARON", "S WITH ACUTE", "S WITH CIRCUMFLEX",
   "S WITH CEDILLA", "S WITH CARON", "T WITH CEDILLA", "T WITH CARON", "T WITH STROKE",
   "U WITH TILDE", "U WITH MACRON", "U WITH BREVE", "U WITH RING ABOVE", "U WITH DOUBLE ACUTE",
   "U WITH OGONEK", "W WITH CIRCUMFLEX", "Y WITH CIRCUMFLEX"]

def greekToRho : List String :=
  ["ALPHA", "BETA", "GAMMA", "DELTA", "EPSILON", "ZETA", "ETA", "THETA", "IOTA", "KAPPA", "LAMDA",
   "MU", "NU", "XI", "OMICRON", "PI", "RHO"]

def greekFromSigma : List String :=
  ["SIGMA", "TAU", "UPSILON", "PHI", "CHI", "PSI", "OMEGA", "IOTA WITH DIALYTIKA",
   "UPSILON WITH DIALYTIKA"]

/-- Cyrillic letters outside the Russian alphabet, but for io. -/
def slavic : List String :=
  ["IE WITH GRAVE", "IO", "DJE", "GJE", "UKRAINIAN IE", "DZE", "BYELORUSSIAN-UKRAINIAN I", "YI",
   "JE", "LJE", "NJE", "TSHE", "KJE", "I WITH GRAVE", "SHORT U", "DZHE"]

/-- The Russian alphabet without io. -/
def russian : List String :=
  ["A", "BE", "VE", "GHE", "DE", "IE", "ZHE", "ZE", "I", "SHORT I", "KA", "EL", "EM", "EN", "O",
   "PE", "ER", "ES", "TE", "U", "EF", "HA", "TSE", "CHE", "SHA", "SHCHA", "HARD SIGN", "YERU",
   "SOFT SIGN", "E", "YU", "YA"]

def kana : List String :=
  ["SMALL A", "A", "SMALL I", "I", "SMALL U", "U", "SMALL E", "E", "SMALL O", "O", "KA", "GA",
   "KI", "GI", "KU", "GU", "KE", "GE", "KO", "GO", "SA", "ZA", "SI", "ZI", "SU", "ZU", "SE", "ZE",
   "SO", "ZO", "TA", "DA", "TI", "DI", "SMALL TU", "TU", "DU", "TE", "DE", "TO", "DO", "NA", "NI",
   "NU", "NE", "NO", "HA", "BA", "PA", "HI", "BI", "PI", "HU", "BU", "PU", "HE", "BE", "PE", "HO",
   "BO", "PO", "MA", "MI", "MU", "ME", "MO", "SMALL YA", "YA", "SMALL YU", "YU", "SMALL YO", "YO",
   "RA", "RI", "RU", "RE", "RO", "SMALL WA", "WA", "WI", "WE", "WO", "N", "VU", "SMALL KA",
   "SMALL KE"]

def signs : List String :=
  ["NO-BREAK SPACE", "INVERTED EXCLAMATION MARK", "CENT SIGN", "POUND SIGN", "CURRENCY SIGN",
   "YEN SIGN", "BROKEN BAR", "SECTION SIGN", "DIAERESIS", "COPYRIGHT SIGN",
   "FEMININE ORDINAL INDICATOR", "LEFT-POINTING DOUBLE ANGLE QUOTATION MARK", "NOT SIGN",
   "SOFT HYPHEN", "REGISTERED SIGN", "MACRON", "DEGREE SIGN", "PLUS-MINUS SIGN", "SUPERSCRIPT TWO",
   "SUPERSCRIPT THREE", "ACUTE ACCENT", "MICRO SIGN", "PILCROW SIGN", "MIDDLE DOT", "CEDILLA",
   "SUPERSCRIPT ONE", "MASCULINE ORDINAL INDICATOR", "RIGHT-POINTING DOUBLE ANGLE QUOTATION MARK",
   "VULGAR FRACTION ONE QUARTER", "VULGAR FRACTION ONE HALF", "VULGAR FRACTION THREE QUARTERS",
   "INVERTED QUESTION MARK"]

def dashes : List String :=
  ["HYPHEN", "NON-BREAKING HYPHEN", "FIGURE DASH", "EN DASH", "EM DASH", "HORIZONTAL BAR",
   "DOUBLE VERTICAL LINE", "DOUBLE LOW LINE", "LEFT SINGLE QUOTATION MARK",
   "RIGHT SINGLE QUOTATION MARK", "SINGLE LOW-9 QUOTATION MARK",
   "SINGLE HIGH-REVERSED-9 QUOTATION MARK", "LEFT DOUBLE QUOTATION MARK",
   "RIGHT DOUBLE QUOTATION MARK", "DOUBLE LOW-9 QUOTATION MARK",
   "DOUBLE HIGH-REVERSED-9 QUOTATION MARK", "DAGGER", "DOUBLE DAGGER", "BULLET",
   "TRIANGULAR BULLET", "ONE DOT LEADER", "TWO DOT LEADER", "HORIZONTAL ELLIPSIS",
   "HYPHENATION POINT"]

def punctuation : List String :=
  ["PER MILLE SIGN", "PER TEN THOUSAND SIGN", "PRIME", "DOUBLE PRIME", "TRIPLE PRIME",
   "REVERSED PRIME", "REVERSED DOUBLE PRIME", "REVERSED TRIPLE PRIME", "CARET",
   "SINGLE LEFT-POINTING ANGLE QUOTATION MARK", "SINGLE RIGHT-POINTING ANGLE QUOTATION MARK",
   "REFERENCE MARK", "DOUBLE EXCLAMATION MARK", "INTERROBANG", "OVERLINE", "UNDERTIE",
   "CHARACTER TIE", "CARET INSERTION POINT", "ASTERISM", "HYPHEN BULLET", "FRACTION SLASH",
   "LEFT SQUARE BRACKET WITH QUILL", "RIGHT SQUARE BRACKET WITH QUILL", "DOUBLE QUESTION MARK",
   "QUESTION EXCLAMATION MARK", "EXCLAMATION QUESTION MARK", "TIRONIAN SIGN ET",
   "REVERSED PILCROW SIGN", "BLACK LEFTWARDS BULLET", "BLACK RIGHTWARDS BULLET", "LOW ASTERISK",
   "REVERSED SEMICOLON", "CLOSE UP", "TWO ASTERISKS ALIGNED VERTICALLY", "COMMERCIAL MINUS SIGN",
   "SWUNG DASH", "INVERTED UNDERTIE", "FLOWER PUNCTUATION MARK", "THREE DOT PUNCTUATION",
   "QUADRUPLE PRIME", "FOUR DOT PUNCTUATION", "FIVE DOT PUNCTUATION", "TWO DOT PUNCTUATION",
   "FOUR DOT MARK", "DOTTED CROSS", "TRICOLON", "VERTICAL FOUR DOTS"]

def currencies : List String :=
  ["EURO-CURRENCY SIGN", "COLON SIGN", "CRUZEIRO SIGN", "FRENCH FRANC SIGN", "LIRA SIGN",
   "MILL SIGN", "NAIRA SIGN", "PESETA SIGN", "RUPEE SIGN", "WON SIGN", "NEW SHEQEL SIGN",
   "DONG SIGN", "EURO SIGN", "KIP SIGN", "TUGRIK SIGN", "DRACHMA SIGN", "GERMAN PENNY SIGN",
   "PESO SIGN", "GUARANI SIGN", "AUSTRAL SIGN", "HRYVNIA SIGN", "CEDI SIGN", "LIVRE TOURNOIS SIGN",
   "SPESMILO SIGN", "TENGE SIGN", "INDIAN RUPEE SIGN", "TURKISH LIRA SIGN", "NORDIC MARK SIGN",
   "MANAT SIGN", "RUBLE SIGN", "LARI SIGN", "BITCOIN SIGN", "SOM SIGN"]

def arrows : List String :=
  ["LEFTWARDS ARROW", "UPWARDS ARROW", "RIGHTWARDS ARROW", "DOWNWARDS ARROW", "LEFT RIGHT ARROW",
   "UP DOWN ARROW", "NORTH WEST ARROW", "NORTH EAST ARROW", "SOUTH EAST ARROW", "SOUTH WEST ARROW"]

def faces : List String :=
  ["GRINNING FACE", "GRINNING FACE WITH SMILING EYES", "FACE WITH TEARS OF JOY",
   "SMILING FACE WITH OPEN MOUTH", "SMILING FACE WITH OPEN MOUTH AND SMILING EYES",
   "SMILING FACE WITH OPEN MOUTH AND COLD SWEAT",
   "SMILING FACE WITH OPEN MOUTH AND TIGHTLY-CLOSED EYES", "SMILING FACE WITH HALO",
   "SMILING FACE WITH HORNS", "WINKING FACE", "SMILING FACE WITH SMILING EYES",
   "FACE SAVOURING DELICIOUS FOOD", "RELIEVED FACE", "SMILING FACE WITH HEART-SHAPED EYES",
   "SMILING FACE WITH SUNGLASSES", "SMIRKING FACE", "NEUTRAL FACE", "EXPRESSIONLESS FACE",
   "UNAMUSED FACE", "FACE WITH COLD SWEAT", "PENSIVE FACE", "CONFUSED FACE", "CONFOUNDED FACE",
   "KISSING FACE", "FACE THROWING A KISS", "KISSING FACE WITH SMILING EYES",
   "KISSING FACE WITH CLOSED EYES", "FACE WITH STUCK-OUT TONGUE",
   "FACE WITH STUCK-OUT TONGUE AND WINKING EYE",
   "FACE WITH STUCK-OUT TONGUE AND TIGHTLY-CLOSED EYES", "DISAPPOINTED FACE", "WORRIED FACE",
   "ANGRY FACE", "POUTING FACE", "CRYING FACE", "PERSEVERING FACE", "FACE WITH LOOK OF TRIUMPH",
   "DISAPPOINTED BUT RELIEVED FACE", "FROWNING FACE WITH OPEN MOUTH", "ANGUISHED FACE",
   "FEARFUL FACE", "WEARY FACE", "SLEEPY FACE", "TIRED FACE", "GRIMACING FACE",
   "LOUDLY CRYING FACE", "FACE WITH OPEN MOUTH", "HUSHED FACE",
   "FACE WITH OPEN MOUTH AND COLD SWEAT", "FACE SCREAMING IN FEAR", "ASTONISHED FACE",
   "FLUSHED FACE", "SLEEPING FACE", "DIZZY FACE", "FACE WITHOUT MOUTH", "FACE WITH MEDICAL MASK",
   "GRINNING CAT FACE WITH SMILING EYES", "CAT FACE WITH TEARS OF JOY",
   "SMILING CAT FACE WITH OPEN MOUTH", "SMILING CAT FACE WITH HEART-SHAPED EYES",
   "CAT FACE WITH WRY SMILE", "KISSING CAT FACE WITH CLOSED EYES", "POUTING CAT FACE",
   "CRYING CAT FACE", "WEARY CAT FACE", "SLIGHTLY FROWNING FACE", "SLIGHTLY SMILING FACE",
   "UPSIDE-DOWN FACE", "FACE WITH ROLLING EYES", "FACE WITH NO GOOD GESTURE",
   "FACE WITH OK GESTURE", "PERSON BOWING DEEPLY", "SEE-NO-EVIL MONKEY", "HEAR-NO-EVIL MONKEY",
   "SPEAK-NO-EVIL MONKEY", "HAPPY PERSON RAISING ONE HAND",
   "PERSON RAISING BOTH HANDS IN CELEBRATION", "PERSON FROWNING", "PERSON WITH POUTING FACE",
   "PERSON WITH FOLDED HANDS"]

def all : List NameRun :=
  [⟨0xa0, 1, "", signs⟩,
   ⟨0xc0, 1, "LATIN CAPITAL LETTER ", accented⟩,
   ⟨0xe0, 1, "LATIN SMALL LETTER ", accented⟩,
   ⟨0xd7, 1, "", ["MULTIPLICATION SIGN"]⟩,
   ⟨0xf7, 1, "", ["DIVISION SIGN"]⟩,
   ⟨0xdf, 1, "LATIN SMALL LETTER ", ["SHARP S"]⟩,
   ⟨0xff, 1, "LATIN SMALL LETTER ", ["Y WITH DIAERESIS"]⟩,
   ⟨0x100, 2, "LATIN CAPITAL LETTER ", extended⟩,
   ⟨0x101, 2, "LATIN SMALL LETTER ", extended⟩,
   ⟨0x130, 1, "LATIN ",
     ["CAPITAL LETTER I WITH DOT ABOVE", "SMALL LETTER DOTLESS I", "CAPITAL LIGATURE IJ",
      "SMALL LIGATURE IJ"]⟩,
   ⟨0x134, 2, "LATIN CAPITAL LETTER ", ["J WITH CIRCUMFLEX", "K WITH CEDILLA"]⟩,
   ⟨0x135, 2, "LATIN SMALL LETTER ", ["J WITH CIRCUMFLEX", "K WITH CEDILLA"]⟩,
   ⟨0x138, 1, "LATIN SMALL LETTER ", ["KRA"]⟩,
   ⟨0x139, 2, "LATIN CAPITAL LETTER ", extendedL⟩,
   ⟨0x13a, 2, "LATIN SMALL LETTER ", extendedL⟩,
   ⟨0x149, 1, "LATIN SMALL LETTER ", ["N PRECEDED BY APOSTROPHE"]⟩,
   ⟨0x14a, 2, "LATIN CAPITAL LETTER ",
     ["ENG", "O WITH MACRON", "O WITH BREVE", "O WITH DOUBLE ACUTE"]⟩,
   ⟨0x14b, 2, "LATIN SMALL LETTER ",
     ["ENG", "O WITH MACRON", "O WITH BREVE", "O WITH DOUBLE ACUTE"]⟩,
   ⟨0x152, 1, "LATIN ", ["CAPITAL LIGATURE OE", "SMALL LIGATURE OE"]⟩,
   ⟨0x154, 2, "LATIN CAPITAL LETTER ", extendedR⟩,
   ⟨0x155, 2, "LATIN SMALL LETTER ", extendedR⟩,
   ⟨0x178, 1, "LATIN CAPITAL LETTER ", ["Y WITH DIAERESIS"]⟩,
   ⟨0x179, 2, "LATIN CAPITAL LETTER ", ["Z WITH ACUTE", "Z WITH DOT ABOVE", "Z WITH CARON"]⟩,
   ⟨0x17a, 2, "LATIN SMALL LETTER ", ["Z WITH ACUTE", "Z WITH DOT ABOVE", "Z WITH CARON"]⟩,
   ⟨0x17f, 1, "LATIN SMALL LETTER ", ["LONG S"]⟩,
   ⟨0x384, 1, "GREEK ",
     ["TONOS", "DIALYTIKA TONOS", "CAPITAL LETTER ALPHA WITH TONOS", "ANO TELEIA",
      "CAPITAL LETTER EPSILON WITH TONOS", "CAPITAL LETTER ETA WITH TONOS",
      "CAPITAL LETTER IOTA WITH TONOS"]⟩,
   ⟨0x38c, 1, "GREEK CAPITAL LETTER ",
     ["OMICRON WITH TONOS", "", "UPSILON WITH TONOS", "OMEGA WITH TONOS"]⟩,
   ⟨0x390, 1, "GREEK SMALL LETTER ", ["IOTA WITH DIALYTIKA AND TONOS"]⟩,
   ⟨0x391, 1, "GREEK CAPITAL LETTER ", greekToRho⟩,
   ⟨0x3a3, 1, "GREEK CAPITAL LETTER ", greekFromSigma⟩,
   ⟨0x3ac, 1, "GREEK SMALL LETTER ",
     ["ALPHA WITH TONOS", "EPSILON WITH TONOS", "ETA WITH TONOS", "IOTA WITH TONOS",
      "UPSILON WITH DIALYTIKA AND TONOS"]⟩,
   ⟨0x3b1, 1, "GREEK SMALL LETTER ", greekToRho⟩,
   ⟨0x3c2, 1, "GREEK SMALL LETTER ", ["FINAL SIGMA"]⟩,
   ⟨0x3c3, 1, "GREEK SMALL LETTER ", greekFromSigma⟩,
   ⟨0x3cc, 1, "GREEK SMALL LETTER ",
     ["OMICRON WITH TONOS", "UPSILON WITH TONOS", "OMEGA WITH TONOS"]⟩,
   ⟨0x400, 1, "CYRILLIC CAPITAL LETTER ", slavic⟩,
   ⟨0x410, 1, "CYRILLIC CAPITAL LETTER ", russian⟩,
   ⟨0x430, 1, "CYRILLIC SMALL LETTER ", russian⟩,
   ⟨0x450, 1, "CYRILLIC SMALL LETTER ", slavic⟩,
   ⟨0x2010, 1, "", dashes⟩,
   ⟨0x2030, 1, "", punctuation⟩,
   ⟨0x20a0, 1, "", currencies⟩,
   ⟨0x2190, 1, "", arrows⟩,
   ⟨0x3001, 1, "", ["IDEOGRAPHIC COMMA", "IDEOGRAPHIC FULL STOP", "DITTO MARK"]⟩,
   ⟨0x3041, 1, "HIRAGANA LETTER ", kana⟩,
   ⟨0x30a1, 1, "KATAKANA LETTER ", kana⟩,
   ⟨0x1f600, 1, "", faces⟩]

def name? (run : NameRun) (code : Nat) : Option String :=
  if code < run.first ∨ (code - run.first) % run.step ≠ 0 then none
  else
    (run.rests[(code - run.first) / run.step]?).bind fun rest =>
      if rest = "" then none else some (run.start ++ rest)

end NameRun

/-- The ranges of characters that are named by their codes, with both ends included. -/
def namedByCode : List (String × Nat × Nat) :=
  [("CJK UNIFIED IDEOGRAPH", 0x3400, 0x4dbf),
   ("CJK UNIFIED IDEOGRAPH", 0x4e00, 0x9fff),
   ("CJK UNIFIED IDEOGRAPH", 0x20000, 0x2a6df),
   ("CJK UNIFIED IDEOGRAPH", 0x2a700, 0x2b738),
   ("CJK UNIFIED IDEOGRAPH", 0x2b740, 0x2b81d),
   ("CJK UNIFIED IDEOGRAPH", 0x2b820, 0x2cea1),
   ("CJK UNIFIED IDEOGRAPH", 0x2ceb0, 0x2ebe0),
   ("CJK UNIFIED IDEOGRAPH", 0x30000, 0x3134a),
   ("CJK COMPATIBILITY IDEOGRAPH", 0xf900, 0xfa6d),
   ("CJK COMPATIBILITY IDEOGRAPH", 0xfa70, 0xfad9),
   ("CJK COMPATIBILITY IDEOGRAPH", 0x2f800, 0x2fa1d),
   ("KHITAN SMALL SCRIPT CHARACTER", 0x18b00, 0x18cd5),
   ("NUSHU CHARACTER", 0x1b170, 0x1b2fb)]

/-- A name made of a word and a code in capital digits. -/
def codeName (word : String) (code : Nat) : String :=
  word ++ "-" ++ String.ofList ((hexDigits 4 code).map Char.toUpper)

def hangulInitials : List String :=
  ["G", "GG", "N", "D", "DD", "R", "M", "B", "BB", "S", "SS", "", "J", "JJ", "C", "K", "T", "P",
   "H"]

def hangulVowels : List String :=
  ["A", "AE", "YA", "YAE", "EO", "E", "YEO", "YE", "O", "WA", "WAE", "OE", "YO", "U", "WEO",
   "WE", "WI", "YU", "EU", "YI", "I"]

def hangulFinals : List String :=
  ["", "G", "GG", "GS", "N", "NJ", "NH", "D", "L", "LG", "LM", "LB", "LS", "LT", "LP", "LH", "M",
   "B", "BS", "S", "SS", "NG", "J", "C", "K", "T", "P", "H"]

/-- The name of a Hangul syllable: its sounds follow from its place among all of them. -/
def hangulName? (code : Nat) : Option String :=
  if code < 0xac00 then none
  else do
    let place := code - 0xac00
    let initial ← hangulInitials[place / 588]?
    let vowel ← hangulVowels[place % 588 / 28]?
    let final ← hangulFinals[place % 28]?
    some ("HANGUL SYLLABLE " ++ initial ++ vowel ++ final)

def charName? (code : Nat) : Option String :=
  match namedByCode.find? fun (_, first, last) => first ≤ code && code ≤ last with
  | some (word, _) => some (codeName word code)
  | none => (hangulName? code).or (NameRun.all.findSome? (·.name? code))

end TreeDelta.Text
