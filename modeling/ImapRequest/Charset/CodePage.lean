import ImapRequest.Octet

/-!
# Single-octet character sets

In these character sets every octet is a character by itself: below 0x80 that of US-ASCII, above it
one of 128 characters that the set chooses.  Some sets leave places without a character.

* `CodePage.rows` : the characters of the octets from 0x80 on, 16 in each row, with U+FFFD in the
  places that have none;
* `CodePage.char?` : the character of an octet.
-/

namespace ImapRequest

/-- A character set in which every octet is a character by itself. -/
inductive CodePage where
  | ibm866
  | iso8859p2
  | iso8859p3
  | iso8859p4
  | iso8859p5
  | iso8859p6
  | iso8859p7
  | iso8859p8
  | iso8859p8i
  | iso8859p10
  | iso8859p13
  | iso8859p14
  | iso8859p15
  | iso8859p16
  | koi8r
  | koi8u
  | macintosh
  | windows874
  | windows1250
  | windows1251
  | windows1252
  | windows1253
  | windows1254
  | windows1255
  | windows1256
  | windows1257
  | windows1258
  | macCyrillic
  deriving DecidableEq, Repr

namespace CodePage

/-- The registered name of the character set. -/
def name : CodePage → String
  | ibm866 => "IBM866"
  | iso8859p2 => "ISO-8859-2"
  | iso8859p3 => "ISO-8859-3"
  | iso8859p4 => "ISO-8859-4"
  | iso8859p5 => "ISO-8859-5"
  | iso8859p6 => "ISO-8859-6"
  | iso8859p7 => "ISO-8859-7"
  | iso8859p8 => "ISO-8859-8"
  | iso8859p8i => "ISO-8859-8-I"
  | iso8859p10 => "ISO-8859-10"
  | iso8859p13 => "ISO-8859-13"
  | iso8859p14 => "ISO-8859-14"
  | iso8859p15 => "ISO-8859-15"
  | iso8859p16 => "ISO-8859-16"
  | koi8r => "KOI8-R"
  | koi8u => "KOI8-U"
  | macintosh => "macintosh"
  | windows874 => "windows-874"
  | windows1250 => "windows-1250"
  | windows1251 => "windows-1251"
  | windows1252 => "windows-1252"
  | windows1253 => "windows-1253"
  | windows1254 => "windows-1254"
  | windows1255 => "windows-1255"
  | windows1256 => "windows-1256"
  | windows1257 => "windows-1257"
  | windows1258 => "windows-1258"
  | macCyrillic => "x-mac-cyrillic"

/-- A row in which every octet is the character with its own number. -/
def ownRow (first : Nat) : String := String.ofList ((List.range' first 16).map Char.ofNat)

/-- The characters of the octets from 0x80 on, 16 in each row. -/
def rows : CodePage → List String
  | ibm866 =>
    ["АБВГДЕЖЗИЙКЛМНОП",
     "РСТУФХЦЧШЩЪЫЬЭЮЯ",
     "абвгдежзийклмноп",
     "░▒▓│┤╡╢╖╕╣║╗╝╜╛┐",
     "└┴┬├─┼╞╟╚╔╩╦╠═╬╧",
     "╨╤╥╙╘╒╓╫╪┘┌█▄▌▐▀",
     "рстуфхцчшщъыьэюя",
     "ЁёЄєЇїЎў°∙·√№¤■\u00a0"]
  | iso8859p2 =>
    [ownRow 0x80,
     ownRow 0x90,
     "\u00a0Ą\u02d8Ł¤ĽŚ§\u00a8ŠŞŤŹ\u00adŽŻ",
     "°ą\u02dbł\u00b4ľś\u02c7\u00b8šşťź\u02ddžż",
     "ŔÁÂĂÄĹĆÇČÉĘËĚÍÎĎ",
     "ĐŃŇÓÔŐÖ×ŘŮÚŰÜÝŢß",
     "ŕáâăäĺćçčéęëěíîď",
     "đńňóôőö÷řůúűüýţ\u02d9"]
  | iso8859p3 =>
    [ownRow 0x80,
     ownRow 0x90,
     "\u00a0Ħ\u02d8£¤\ufffdĤ§\u00a8İŞĞĴ\u00ad\ufffdŻ",
     "°ħ\u00b2\u00b3\u00b4µĥ·\u00b8ışğĵ\u00bd\ufffdż",
     "ÀÁÂ\ufffdÄĊĈÇÈÉÊËÌÍÎÏ",
     "\ufffdÑÒÓÔĠÖ×ĜÙÚÛÜŬŜß",
     "àáâ\ufffdäċĉçèéêëìíîï",
     "\ufffdñòóôġö÷ĝùúûüŭŝ\u02d9"]
  | iso8859p4 =>
    [ownRow 0x80,
     ownRow 0x90,
     "\u00a0ĄĸŖ¤ĨĻ§\u00a8ŠĒĢŦ\u00adŽ\u00af",
     "°ą\u02dbŗ\u00b4ĩļ\u02c7\u00b8šēģŧŊžŋ",
     "ĀÁÂÃÄÅÆĮČÉĘËĖÍÎĪ",
     "ĐŅŌĶÔÕÖ×ØŲÚÛÜŨŪß",
     "āáâãäåæįčéęëėíîī",
     "đņōķôõö÷øųúûüũū\u02d9"]
  | iso8859p5 =>
    [ownRow 0x80,
     ownRow 0x90,
     "\u00a0ЁЂЃЄЅІЇЈЉЊЋЌ\u00adЎЏ",
     "АБВГДЕЖЗИЙКЛМНОП",
     "РСТУФХЦЧШЩЪЫЬЭЮЯ",
     "абвгдежзийклмноп",
     "рстуфхцчшщъыьэюя",
     "№ёђѓєѕіїјљњћќ§ўџ"]
  | iso8859p6 =>
    [ownRow 0x80,
     ownRow 0x90,
     "\u00a0\ufffd\ufffd\ufffd¤\ufffd\ufffd\ufffd\ufffd\ufffd\ufffd\ufffd،\u00ad\ufffd\ufffd",
     "\ufffd\ufffd\ufffd\ufffd\ufffd\ufffd\ufffd\ufffd\ufffd\ufffd\ufffd\u061b\ufffd\ufffd\ufffd\u061f",
     "\ufffd\u0621\u0622\u0623\u0624\u0625\u0626\u0627\u0628\u0629\u062a\u062b\u062c\u062d\u062e\u062f",
     "\u0630\u0631\u0632\u0633\u0634\u0635\u0636\u0637\u0638\u0639\u063a\ufffd\ufffd\ufffd\ufffd\ufffd",
     "\u0640\u0641\u0642\u0643\u0644\u0645\u0646\u0647\u0648\u0649\u064a\u064b\u064c\u064d\u064e\u064f",
     "\u0650\u0651\u0652\ufffd\ufffd\ufffd\ufffd\ufffd\ufffd\ufffd\ufffd\ufffd\ufffd\ufffd\ufffd\ufffd"]
  | iso8859p7 =>
    [ownRow 0x80,
     ownRow 0x90,
     "\u00a0‘’£€₯¦§\u00a8©\u037a«¬\u00ad\ufffd―",
     "°±\u00b2\u00b3\u0384\u0385Ά·ΈΉΊ»Ό\u00bdΎΏ",
     "ΐΑΒΓΔΕΖΗΘΙΚΛΜΝΞΟ",
     "ΠΡ\ufffdΣΤΥΦΧΨΩΪΫάέήί",
     "ΰαβγδεζηθικλμνξο",
     "πρςστυφχψωϊϋόύώ\ufffd"]
  | iso8859p8 | iso8859p8i =>
    [ownRow 0x80,
     ownRow 0x90,
     "\u00a0\ufffd¢£¤¥¦§\u00a8©×«¬\u00ad®\u00af",
     "°±\u00b2\u00b3\u00b4µ¶·\u00b8\u00b9÷»\u00bc\u00bd\u00be\ufffd",
     "\ufffd\ufffd\ufffd\ufffd\ufffd\ufffd\ufffd\ufffd\ufffd\ufffd\ufffd\ufffd\ufffd\ufffd\ufffd\ufffd",
     "\ufffd\ufffd\ufffd\ufffd\ufffd\ufffd\ufffd\ufffd\ufffd\ufffd\ufffd\ufffd\ufffd\ufffd\ufffd‗",
     "\u05d0\u05d1\u05d2\u05d3\u05d4\u05d5\u05d6\u05d7\u05d8\u05d9\u05da\u05db\u05dc\u05dd\u05de\u05df",
     "\u05e0\u05e1\u05e2\u05e3\u05e4\u05e5\u05e6\u05e7\u05e8\u05e9\u05ea\ufffd\ufffd\u200e\u200f\ufffd"]
  | iso8859p10 =>
    [ownRow 0x80,
     ownRow 0x90,
     "\u00a0ĄĒĢĪĨĶ§ĻĐŠŦŽ\u00adŪŊ",
     "°ąēģīĩķ·ļđšŧž―ūŋ",
     "ĀÁÂÃÄÅÆĮČÉĘËĖÍÎÏ",
     "ÐŅŌÓÔÕÖŨØŲÚÛÜÝÞß",
     "āáâãäåæįčéęëėíîï",
     "ðņōóôõöũøųúûüýþĸ"]
  | iso8859p13 =>
    [ownRow 0x80,
     ownRow 0x90,
     "\u00a0”¢£¤„¦§Ø©Ŗ«¬\u00ad®Æ",
     "°±\u00b2\u00b3“µ¶·ø\u00b9ŗ»\u00bc\u00bd\u00beæ",
     "ĄĮĀĆÄÅĘĒČÉŹĖĢĶĪĻ",
     "ŠŃŅÓŌÕÖ×ŲŁŚŪÜŻŽß",
     "ąįāćäåęēčéźėģķīļ",
     "šńņóōõö÷ųłśūüżž’"]
  | iso8859p14 =>
    [ownRow 0x80,
     ownRow 0x90,
     "\u00a0Ḃḃ£ĊċḊ§Ẁ©ẂḋỲ\u00ad®Ÿ",
     "ḞḟĠġṀṁ¶ṖẁṗẃṠỳẄẅṡ",
     ownRow 0xc0,
     "ŴÑÒÓÔÕÖṪØÙÚÛÜÝŶß",
     ownRow 0xe0,
     "ŵñòóôõöṫøùúûüýŷÿ"]
  | iso8859p15 =>
    [ownRow 0x80,
     ownRow 0x90,
     "\u00a0¡¢£€¥Š§š©ª«¬\u00ad®\u00af",
     "°±\u00b2\u00b3Žµ¶·ž\u00b9º»ŒœŸ¿",
     ownRow 0xc0,
     ownRow 0xd0,
     ownRow 0xe0,
     ownRow 0xf0]
  | iso8859p16 =>
    [ownRow 0x80,
     ownRow 0x90,
     "\u00a0ĄąŁ€„Š§š©Ș«Ź\u00adźŻ",
     "°±ČłŽ”¶·žčș»ŒœŸż",
     "ÀÁÂĂÄĆÆÇÈÉÊËÌÍÎÏ",
     "ĐŃÒÓÔŐÖŚŰÙÚÛÜĘȚß",
     "àáâăäćæçèéêëìíîï",
     "đńòóôőöśűùúûüęțÿ"]
  | koi8r =>
    ["─│┌┐└┘├┤┬┴┼▀▄█▌▐",
     "░▒▓⌠■∙√≈≤≥\u00a0⌡°\u00b2·÷",
     "═║╒ё╓╔╕╖╗╘╙╚╛╜╝╞",
     "╟╠╡Ё╢╣╤╥╦╧╨╩╪╫╬©",
     "юабцдефгхийклмно",
     "пярстужвьызшэщчъ",
     "ЮАБЦДЕФГХИЙКЛМНО",
     "ПЯРСТУЖВЬЫЗШЭЩЧЪ"]
  | koi8u =>
    ["─│┌┐└┘├┤┬┴┼▀▄█▌▐",
     "░▒▓⌠■∙√≈≤≥\u00a0⌡°\u00b2·÷",
     "═║╒ёє╔ії╗╘╙╚╛ґў╞",
     "╟╠╡ЁЄ╣ІЇ╦╧╨╩╪ҐЎ©",
     "юабцдефгхийклмно",
     "пярстужвьызшэщчъ",
     "ЮАБЦДЕФГХИЙКЛМНО",
     "ПЯРСТУЖВЬЫЗШЭЩЧЪ"]
  | macintosh =>
    ["ÄÅÇÉÑÖÜáàâäãåçéè",
     "êëíìîïñóòôöõúùûü",
     "†°¢£§•¶ß®©™\u00b4\u00a8≠ÆØ",
     "∞±≤≥¥µ∂∑∏π∫ªºΩæø",
     "¿¡¬√ƒ≈∆«»…\u00a0ÀÃÕŒœ",
     "–—“”‘’÷◊ÿŸ⁄€‹›ﬁﬂ",
     "‡·‚„‰ÂÊÁËÈÍÎÏÌÓÔ",
     "\uf8ffÒÚÛÙı\u02c6\u02dc\u00af\u02d8\u02d9\u02da\u00b8\u02dd\u02db\u02c7"]
  | windows874 =>
    ["€\u0081\u0082\u0083\u0084…\u0086\u0087\u0088\u0089\u008a\u008b\u008c\u008d\u008e\u008f",
     "\u0090‘’“”•–—\u0098\u0099\u009a\u009b\u009c\u009d\u009e\u009f",
     "\u00a0กขฃคฅฆงจฉชซฌญฎฏ",
     "ฐฑฒณดตถทธนบปผฝพฟ",
     "ภมยรฤลฦวศษสหฬอฮฯ",
     "ะ\u0e31าำ\u0e34\u0e35\u0e36\u0e37\u0e38\u0e39\u0e3a\ufffd\ufffd\ufffd\ufffd฿",
     "เแโใไๅ\u0e46\u0e47\u0e48\u0e49\u0e4a\u0e4b\u0e4c\u0e4d\u0e4e๏",
     "\u0e50\u0e51\u0e52\u0e53\u0e54\u0e55\u0e56\u0e57\u0e58\u0e59๚๛\ufffd\ufffd\ufffd\ufffd"]
  | windows1250 =>
    ["€\u0081‚\u0083„…†‡\u0088‰Š‹ŚŤŽŹ",
     "\u0090‘’“”•–—\u0098™š›śťžź",
     "\u00a0\u02c7\u02d8Ł¤Ą¦§\u00a8©Ş«¬\u00ad®Ż",
     "°±\u02dbł\u00b4µ¶·\u00b8ąş»Ľ\u02ddľż",
     "ŔÁÂĂÄĹĆÇČÉĘËĚÍÎĎ",
     "ĐŃŇÓÔŐÖ×ŘŮÚŰÜÝŢß",
     "ŕáâăäĺćçčéęëěíîď",
     "đńňóôőö÷řůúűüýţ\u02d9"]
  | windows1251 =>
    ["ЂЃ‚ѓ„…†‡€‰Љ‹ЊЌЋЏ",
     "ђ‘’“”•–—\u0098™љ›њќћџ",
     "\u00a0ЎўЈ¤Ґ¦§Ё©Є«¬\u00ad®Ї",
     "°±Ііґµ¶·ё№є»јЅѕї",
     "АБВГДЕЖЗИЙКЛМНОП",
     "РСТУФХЦЧШЩЪЫЬЭЮЯ",
     "абвгдежзийклмноп",
     "рстуфхцчшщъыьэюя"]
  | windows1252 =>
    ["€\u0081‚ƒ„…†‡\u02c6‰Š‹Œ\u008dŽ\u008f",
     "\u0090‘’“”•–—\u02dc™š›œ\u009džŸ",
     ownRow 0xa0,
     ownRow 0xb0,
     ownRow 0xc0,
     ownRow 0xd0,
     ownRow 0xe0,
     ownRow 0xf0]
  | windows1253 =>
    ["€\u0081‚ƒ„…†‡\u0088‰\u008a‹\u008c\u008d\u008e\u008f",
     "\u0090‘’“”•–—\u0098™\u009a›\u009c\u009d\u009e\u009f",
     "\u00a0\u0385Ά£¤¥¦§\u00a8©\ufffd«¬\u00ad®―",
     "°±\u00b2\u00b3\u0384µ¶·ΈΉΊ»Ό\u00bdΎΏ",
     "ΐΑΒΓΔΕΖΗΘΙΚΛΜΝΞΟ",
     "ΠΡ\ufffdΣΤΥΦΧΨΩΪΫάέήί",
     "ΰαβγδεζηθικλμνξο",
     "πρςστυφχψωϊϋόύώ\ufffd"]
  | windows1254 =>
    ["€\u0081‚ƒ„…†‡\u02c6‰Š‹Œ\u008d\u008e\u008f",
     "\u0090‘’“”•–—\u02dc™š›œ\u009d\u009eŸ",
     ownRow 0xa0,
     ownRow 0xb0,
     ownRow 0xc0,
     "ĞÑÒÓÔÕÖ×ØÙÚÛÜİŞß",
     ownRow 0xe0,
     "ğñòóôõö÷øùúûüışÿ"]
  | windows1255 =>
    ["€\u0081‚ƒ„…†‡\u02c6‰\u008a‹\u008c\u008d\u008e\u008f",
     "\u0090‘’“”•–—\u02dc™\u009a›\u009c\u009d\u009e\u009f",
     "\u00a0¡¢£₪¥¦§\u00a8©×«¬\u00ad®\u00af",
     "°±\u00b2\u00b3\u00b4µ¶·\u00b8\u00b9÷»\u00bc\u00bd\u00be¿",
     "\u05b0\u05b1\u05b2\u05b3\u05b4\u05b5\u05b6\u05b7\u05b8\u05b9\u05ba\u05bb\u05bc\u05bd\u05be\u05bf",
     "\u05c0\u05c1\u05c2\u05c3\u05f0\u05f1\u05f2\u05f3\u05f4\ufffd\ufffd\ufffd\ufffd\ufffd\ufffd\ufffd",
     "\u05d0\u05d1\u05d2\u05d3\u05d4\u05d5\u05d6\u05d7\u05d8\u05d9\u05da\u05db\u05dc\u05dd\u05de\u05df",
     "\u05e0\u05e1\u05e2\u05e3\u05e4\u05e5\u05e6\u05e7\u05e8\u05e9\u05ea\ufffd\ufffd\u200e\u200f\ufffd"]
  | windows1256 =>
    ["€\u067e‚ƒ„…†‡\u02c6‰\u0679‹Œ\u0686\u0698\u0688",
     "\u06af‘’“”•–—\u06a9™\u0691›œ\u200c\u200d\u06ba",
     "\u00a0،¢£¤¥¦§\u00a8©\u06be«¬\u00ad®\u00af",
     "°±\u00b2\u00b3\u00b4µ¶·\u00b8\u00b9\u061b»\u00bc\u00bd\u00be\u061f",
     "\u06c1\u0621\u0622\u0623\u0624\u0625\u0626\u0627\u0628\u0629\u062a\u062b\u062c\u062d\u062e\u062f",
     "\u0630\u0631\u0632\u0633\u0634\u0635\u0636×\u0637\u0638\u0639\u063a\u0640\u0641\u0642\u0643",
     "à\u0644â\u0645\u0646\u0647\u0648çèéêë\u0649\u064aîï",
     "\u064b\u064c\u064d\u064eô\u064f\u0650÷\u0651ù\u0652ûü\u200e\u200f\u06d2"]
  | windows1257 =>
    ["€\u0081‚\u0083„…†‡\u0088‰\u008a‹\u008c\u00a8\u02c7\u00b8",
     "\u0090‘’“”•–—\u0098™\u009a›\u009c\u00af\u02db\u009f",
     "\u00a0\ufffd¢£¤\ufffd¦§Ø©Ŗ«¬\u00ad®Æ",
     "°±\u00b2\u00b3\u00b4µ¶·ø\u00b9ŗ»\u00bc\u00bd\u00beæ",
     "ĄĮĀĆÄÅĘĒČÉŹĖĢĶĪĻ",
     "ŠŃŅÓŌÕÖ×ŲŁŚŪÜŻŽß",
     "ąįāćäåęēčéźėģķīļ",
     "šńņóōõö÷ųłśūüżž\u02d9"]
  | windows1258 =>
    ["€\u0081‚ƒ„…†‡\u02c6‰\u008a‹Œ\u008d\u008e\u008f",
     "\u0090‘’“”•–—\u02dc™\u009a›œ\u009d\u009eŸ",
     ownRow 0xa0,
     ownRow 0xb0,
     "ÀÁÂĂÄÅÆÇÈÉÊË\u0300ÍÎÏ",
     "ĐÑ\u0309ÓÔƠÖ×ØÙÚÛÜƯ\u0303ß",
     "àáâăäåæçèéêë\u0301íîï",
     "đñ\u0323óôơö÷øùúûüư₫ÿ"]
  | macCyrillic =>
    ["АБВГДЕЖЗИЙКЛМНОП",
     "РСТУФХЦЧШЩЪЫЬЭЮЯ",
     "†°Ґ£§•¶І®©™Ђђ≠Ѓѓ",
     "∞±≤≥іµґЈЄєЇїЉљЊњ",
     "јЅ¬√ƒ≈∆«»…\u00a0ЋћЌќѕ",
     "–—“”‘’÷„ЎўЏџ№Ёёя",
     "абвгдежзийклмноп",
     "рстуфхцчшщъыьэю€"]

/-- The place of a table that has no character. -/
def unassigned : Char := '\ufffd'

/-- The character of an octet, unless the set has none there. -/
def char? (p : CodePage) (b : UInt8) : Option Char :=
  if b < 0x80 then some (Octet.toChar b)
  else do
    let row ← p.rows[(b.toNat - 128) / 16]?
    let c ← row.toList[b.toNat % 16]?
    if c = unassigned then none else some c

end CodePage

end ImapRequest
