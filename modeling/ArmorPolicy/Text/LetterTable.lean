/-!
# Tables of character properties

Code points above ASCII that may stand in names.  A table says in turn how many code points are
passed over and how many belong to the next run.  The two classes follow different versions of the
Unicode standard; what they share is listed once.
-/

namespace ArmorPolicy.Text.LetterTable

/-- Characters of both classes: letters and decimal digits. -/
def shared : List Nat := [
  170, 1, 10, 1, 4, 1, 5, 23, 1, 31, 1, 458, 4, 12, 14, 5, 7, 1, 1, 1, 86, 1, 29, 18, 1, 2, 2, 4, 1,
  1, 6, 1, 1, 3, 1, 1, 1, 20, 1, 83, 1, 139, 8, 166, 1, 38, 2, 1, 6, 41, 39, 14, 1, 1, 1, 2, 1, 2,
  1, 1, 8, 27, 4, 4, 29, 11, 5, 56, 1, 17, 4, 102, 1, 8, 4, 8, 4, 16, 2, 1, 16, 48, 13, 101, 14, 43,
  9, 2, 4, 1, 5, 24, 2, 19, 19, 25, 7, 11, 5, 24, 1, 6, 8, 1, 8, 42, 10, 12, 3, 7, 6, 76, 1, 16, 1,
  3, 4, 15, 2, 10, 1, 19, 1, 8, 2, 2, 2, 22, 1, 7, 1, 1, 3, 4, 3, 8, 2, 2, 2, 2, 1, 1, 8, 1, 4, 2,
  1, 5, 2, 12, 10, 1, 4, 3, 1, 6, 4, 2, 2, 22, 1, 7, 1, 2, 1, 2, 1, 2, 4, 5, 4, 2, 2, 2, 4, 1, 7, 4,
  1, 1, 7, 16, 11, 3, 1, 9, 1, 3, 1, 22, 1, 7, 1, 2, 1, 5, 3, 9, 1, 3, 1, 2, 3, 1, 15, 4, 2, 10, 9,
  4, 4, 3, 1, 8, 2, 2, 2, 22, 1, 7, 1, 2, 1, 5, 3, 8, 2, 2, 2, 2, 9, 2, 4, 2, 1, 5, 2, 10, 1, 1, 16,
  2, 1, 6, 3, 3, 1, 4, 3, 2, 1, 1, 1, 2, 3, 2, 3, 3, 3, 12, 4, 5, 3, 3, 1, 3, 3, 1, 6, 1, 14, 10,
  16, 13, 1, 3, 1, 23, 1, 16, 3, 8, 1, 3, 1, 3, 8, 2, 1, 3, 2, 1, 2, 4, 2, 10, 16, 4, 1, 8, 1, 3, 1,
  23, 1, 10, 1, 5, 3, 8, 1, 3, 1, 3, 8, 2, 6, 2, 1, 4, 2, 10, 1, 3, 12, 13, 1, 3, 1, 41, 2, 8, 1, 3,
  1, 3, 1, 1, 5, 4, 7, 5, 2, 10, 10, 6, 1, 3, 1, 18, 3, 24, 1, 9, 1, 1, 2, 7, 8, 6, 1, 1, 1, 8, 6,
  10, 2, 2, 13, 58, 5, 7, 6, 1, 2, 10, 39, 2, 1, 1, 1, 5, 1, 24, 1, 1, 1, 19, 1, 3, 2, 5, 1, 1, 6,
  1, 2, 10, 2, 4, 32, 1, 31, 10, 22, 8, 1, 36, 4, 19, 4, 16, 1, 36, 67, 55, 1, 1, 2, 15, 6, 78, 2,
  38, 1, 1, 5, 1, 2, 43, 1, 333, 1, 4, 2, 7, 1, 1, 1, 4, 2, 41, 1, 4, 2, 33, 1, 4, 2, 7, 1, 1, 1, 4,
  2, 15, 1, 57, 1, 4, 2, 67, 37, 16, 16, 86, 2, 6, 3, 620, 2, 17, 1, 26, 5, 75, 3, 11, 7, 20, 11,
  21, 12, 20, 12, 13, 1, 3, 1, 2, 12, 52, 2, 19, 14, 1, 4, 1, 3, 10, 38, 10, 6, 89, 7, 43, 5, 70,
  10, 31, 1, 12, 4, 9, 13, 40, 2, 5, 11, 44, 4, 26, 6, 10, 38, 28, 4, 63, 2, 20, 11, 10, 6, 10, 13,
  1, 23, 2, 11, 3, 49, 52, 1, 15, 1, 8, 3, 10, 38, 42, 2, 58, 1, 11, 14, 55, 9, 10, 3, 49, 2, 11, 5,
  43, 2, 3, 41, 4, 1, 6, 1, 2, 3, 1, 5, 192, 19, 34, 11, 278, 2, 6, 2, 38, 2, 6, 2, 8, 1, 1, 1, 1,
  1, 1, 1, 31, 2, 53, 1, 7, 1, 1, 3, 3, 1, 7, 3, 4, 2, 6, 4, 13, 5, 3, 1, 7, 116, 1, 13, 1, 16, 13,
  101, 1, 4, 1, 2, 10, 1, 1, 3, 5, 6, 1, 1, 1, 1, 1, 1, 4, 1, 11, 2, 4, 5, 5, 4, 1, 17, 41, 813, 52,
  1814, 229, 6, 4, 3, 2, 12, 38, 1, 1, 5, 1, 2, 56, 7, 1, 16, 23, 9, 7, 1, 7, 1, 7, 1, 7, 1, 7, 1,
  7, 1, 7, 1, 7, 1, 32, 47, 1, 469, 3, 25, 9, 7, 5, 2, 5, 4, 86, 6, 3, 1, 90, 1, 4, 5, 43, 1, 94,
  17, 32, 48, 16, 512, 6592, 64, 22157, 67, 46, 2, 269, 3, 28, 20, 47, 5, 8, 3, 113, 39, 9, 2, 103,
  2, 67, 2, 2, 1, 1, 1, 8, 21, 20, 1, 33, 24, 52, 12, 68, 1, 1, 10, 10, 24, 6, 3, 1, 1, 46, 5, 35,
  13, 29, 3, 51, 1, 12, 15, 11, 6, 31, 1, 55, 9, 14, 2, 10, 6, 23, 3, 69, 1, 1, 1, 1, 24, 3, 2, 16,
  2, 4, 11, 6, 2, 6, 2, 6, 9, 7, 1, 7, 1, 43, 1, 14, 6, 123, 5, 10, 6, 11172, 12, 23, 4, 49, 8452,
  366, 2, 106, 38, 7, 12, 5, 5, 12, 1, 13, 1, 5, 1, 1, 1, 2, 1, 2, 1, 108, 33, 363, 18, 64, 2, 54,
  40, 12, 116, 5, 1, 135, 19, 10, 7, 26, 6, 26, 11, 89, 3, 6, 2, 6, 2, 6, 2, 3, 35, 12, 1, 26, 1,
  19, 1, 2, 1, 15, 2, 14, 34, 123, 69, 53, 267, 29, 3, 49, 47, 32, 13, 30, 5, 43, 5, 30, 2, 36, 4,
  8, 1, 5, 42, 158, 2, 10, 6, 36, 4, 36, 4, 40, 8, 52, 12, 11, 1, 15, 1, 7, 1, 2, 1, 11, 1, 15, 1,
  7, 1, 2, 3, 52, 12, 311, 9, 22, 10, 8, 24, 6, 1, 42, 1, 9, 69, 6, 2, 1, 1, 44, 1, 2, 3, 1, 2, 23,
  10, 23, 9, 31, 65, 19, 1, 2, 10, 22, 10, 26, 70, 56, 6, 2, 64, 4, 1, 2, 5, 8, 1, 3, 1, 29, 42, 29,
  3, 29, 35, 8, 1, 28, 27, 54, 10, 22, 10, 19, 13, 18, 110, 73, 55, 51, 13, 51, 13, 40, 8, 10, 6,
  38, 3, 1, 5, 23, 250, 42, 1, 2, 3, 2, 16, 3, 55, 1, 3, 29, 10, 1, 8, 22, 42, 18, 46, 21, 27, 23,
  9, 70, 32, 10, 1, 5, 10, 57, 9, 1, 13, 25, 7, 10, 6, 51, 3, 10, 4, 4, 8, 35, 3, 1, 9, 64, 1, 4, 9,
  13, 1, 1, 35, 18, 1, 34, 2, 1, 6, 4, 62, 7, 1, 1, 1, 4, 1, 15, 1, 10, 7, 57, 7, 10, 6, 4, 1, 8, 2,
  2, 2, 22, 1, 7, 1, 2, 1, 5, 3, 8, 2, 2, 2, 2, 3, 1, 6, 1, 5, 7, 28, 10, 1, 1, 2, 1, 1, 38, 1, 10,
  1, 1, 2, 1, 1, 4, 1, 2, 3, 1, 1, 1, 44, 66, 1, 3, 1, 4, 5, 10, 5, 3, 30, 66, 2, 2, 1, 1, 8, 10,
  166, 54, 2, 7, 25, 6, 34, 63, 1, 1, 3, 1, 11, 10, 38, 54, 2, 1, 7, 10, 6, 20, 28, 27, 2, 14, 5,
  10, 6, 7, 185, 57, 103, 74, 21, 8, 2, 1, 2, 8, 1, 2, 1, 30, 1, 2, 2, 2, 2, 4, 13, 10, 70, 8, 2,
  46, 2, 6, 1, 1, 1, 2, 27, 51, 2, 10, 17, 72, 5, 1, 18, 73, 199, 33, 15, 10, 6, 9, 1, 45, 1, 7, 1,
  1, 15, 10, 24, 30, 2, 22, 1, 14, 73, 7, 1, 2, 1, 44, 3, 1, 1, 2, 1, 3, 1, 1, 2, 2, 8, 10, 6, 6, 1,
  2, 1, 37, 1, 2, 1, 4, 1, 1, 7, 10, 310, 23, 9, 17, 1, 41, 3, 3, 15, 10, 86, 1, 79, 922, 102, 111,
  17, 196, 2636, 97, 15, 1072, 17, 6, 25, 3995, 5, 583, 6841, 47, 1, 10, 1734, 569, 7, 31, 1, 10, 6,
  79, 1, 10, 6, 30, 18, 48, 16, 4, 12, 10, 9, 21, 5, 19, 432, 45, 3, 10, 198, 64, 128, 75, 4, 57, 7,
  17, 64, 2, 1, 1, 12, 2, 14, 6136, 8, 1238, 41, 10, 8935, 4, 1, 7, 1, 2, 1, 291, 15, 1, 29, 3, 2,
  1, 14, 4, 8, 396, 2308, 107, 5, 13, 3, 9, 7, 10, 4, 1, 4177, 10, 1798, 85, 1, 71, 1, 2, 2, 1, 2,
  2, 2, 4, 1, 12, 1, 1, 1, 7, 1, 65, 1, 4, 2, 8, 1, 7, 1, 28, 1, 4, 1, 5, 1, 1, 3, 7, 1, 340, 2, 25,
  1, 25, 1, 31, 1, 25, 1, 31, 1, 25, 1, 31, 1, 25, 1, 31, 1, 25, 1, 8, 2, 50, 1792, 31, 6, 6, 213,
  7, 1, 17, 2, 7, 1, 2, 1, 5, 5, 62, 33, 1, 112, 45, 10, 7, 2, 10, 4, 1, 321, 30, 18, 44, 4, 10,
  470, 28, 4, 10, 214, 30, 2, 11, 485, 7, 1, 4, 1, 2, 1, 15, 1, 197, 59, 68, 3, 1, 3, 1, 4, 10,
  1190, 4, 1, 27, 1, 2, 1, 1, 2, 1, 1, 10, 1, 4, 1, 1, 1, 1, 6, 1, 4, 1, 1, 1, 1, 1, 1, 3, 1, 2, 1,
  1, 2, 1, 1, 1, 1, 1, 1, 1, 1, 1, 1, 2, 1, 1, 2, 4, 1, 7, 1, 4, 1, 4, 1, 1, 1, 10, 1, 17, 5, 3, 1,
  5, 1, 17, 628, 26, 6, 26, 6, 26, 2662, 10, 1030, 42720, 32, 4154, 6, 222, 2, 5762, 14, 7473, 15,
  622, 2466, 542, 1506, 4939, 5, 4192]

/-- With the shared ones, the property Alphabetic or a category of numbers, as of Unicode 17.0. -/
def alphanumeric : List Nat := [
  178, 2, 5, 1, 2, 3, 2000, 1, 356, 6, 376, 6, 120, 3, 105, 1, 27, 7, 93, 1, 123, 7, 17, 9, 433, 10,
  1077, 20, 1139, 10, 480, 1, 1685, 1, 3, 6, 6, 10, 198, 16, 41, 1, 726, 60, 78, 22, 630, 30, 1385,
  1, 1172, 4, 138, 10, 30, 8, 1, 15, 32, 10, 39, 15, 29966, 2, 2, 1, 1, 1, 28, 1, 62, 6, 22737, 45,
  65, 4, 17, 2, 341, 27, 36, 4, 1332, 8, 25, 7, 39, 9, 75, 5, 22, 6, 36, 26, 98, 2, 2, 16, 2, 46,
  64, 9, 52, 2, 30, 3, 75, 5, 104, 8, 24, 8, 41, 7, 330, 6, 352, 31, 70, 3, 50, 2, 33, 10, 42, 4,
  112, 7, 134, 20, 379, 20, 1349, 2, 430, 9, 621, 8, 242, 19, 323, 44, 4, 10, 470, 21, 19334, 7,
  798, 23, 9, 25, 2, 25, 286, 5, 6145, 8, 1289, 22, 97, 115, 17613, 20, 12, 20, 108, 25, 4935, 31,
  1, 22, 8, 2, 455, 9, 929, 59, 1, 3, 1, 4, 76, 45, 1, 15, 962, 13, 50733, 6, 5986, 12, 21762, 4298]

/-- With the shared ones, the property Alphabetic or Join_Control, or a category of marks, decimal
digits or connector punctuation, as of Unicode 16.0. -/
def word : List Nat := [
  768, 69, 1, 29, 288, 7, 263, 31, 168, 1, 134, 2, 9, 3, 83, 11, 160, 9, 9, 1, 26, 2, 19, 1, 43, 3,
  60, 8, 42, 10, 12, 2, 8, 6, 76, 1, 16, 1, 3, 4, 103, 1, 16, 1, 48, 1, 61, 1, 16, 1, 110, 1, 16, 1,
  47, 3, 60, 1, 16, 1, 7, 1, 119, 1, 110, 1, 16, 1, 110, 1, 16, 1, 109, 2, 16, 1, 124, 1, 124, 6, 1,
  1, 107, 1, 13, 5, 1, 1, 73, 2, 27, 1, 1, 1, 1, 1, 4, 2, 68, 1, 1, 2, 62, 1, 112, 1, 1, 2, 802, 3,
  948, 2, 30, 1, 127, 2, 19, 11, 9, 1, 45, 3, 1, 1, 297, 3, 292, 1, 20, 8, 2, 1, 48, 15, 2, 11, 104,
  1, 15, 1, 38, 9, 54, 2, 58, 1, 11, 2, 67, 1, 152, 3, 1, 21, 4, 1, 6, 1, 2, 3, 198, 19, 34, 11,
  524, 2, 49, 2, 19, 1, 123, 33, 3070, 3, 141, 1, 682, 6, 105, 2, 30164, 4, 9, 2, 114, 2, 276, 1,
  37, 1, 151, 1, 27, 18, 57, 3, 37, 1, 95, 1, 12, 1, 254, 1, 1, 1, 52, 1, 245, 2, 21010, 16, 16, 16,
  3, 2, 24, 3, 239, 1, 701, 1, 226, 1, 1879, 3, 4, 1, 165, 2, 643, 4, 399, 3, 70, 11, 49, 4, 192, 1,
  41, 1, 14, 1, 57, 2, 120, 2, 62, 1, 76, 1, 8, 4, 104, 2, 178, 2, 80, 2, 16, 1, 24, 7, 3, 5, 89, 3,
  1, 1, 14, 2, 95, 1, 3, 1, 23, 1, 99, 2, 251, 2, 126, 1, 118, 2, 115, 1, 269, 2, 258, 2, 4, 1, 156,
  1, 82, 2, 18, 1, 80, 2, 421, 1, 258, 1, 1, 2, 81, 1, 425, 2, 23, 1, 5349, 1, 6, 15, 11481, 1,
  2496, 5, 59, 7, 1197, 1, 19640, 1, 4706, 46, 2, 23, 542, 5, 3, 6, 8, 8, 2, 7, 30, 4, 148, 3, 1979,
  55, 4, 50, 8, 1, 14, 1, 22, 5, 1, 15, 1664, 7, 375, 1, 61, 4, 508, 4, 254, 2, 736, 7, 109, 3, 1,
  3, 792501, 240]

end ArmorPolicy.Text.LetterTable
